/-
Memnode.Lib.Semaphore — a counting semaphore with a queue of waiters.

This is the semaphore of a cooperative event loop (`asyncio.Semaphore`).
Whoever finds a free slot and nobody waiting takes it at once; everybody
else joins the waiters. `release` hands its slot to the first waiter
that has none yet, and that waiter runs some time later (`resume`); a
waiter may also be cancelled (`abandon`). Both then pass on what slots
are free, so a slot is never left lying while somebody waits.

`available` counts the slots that are free or already handed to a waiter
about to run. It is the quantity an accounting argument needs: only
`release` raises it, and only taking a slot for good lowers it.

`Handed` says that last thing: a slot is free only if nobody waits, or
while a waiter that has one is about to run and pass it on. Where no
waiter has a slot, then, there is none to be had.
-/
import Mathlib.Data.List.Perm.Basic

namespace Lib

/-- The free slots, and the waiters in order, each with whether a slot
has been handed to it. -/
structure Semaphore (α : Type) where
  value : Nat
  waiters : List (α × Bool)

namespace Semaphore

variable {α : Type}

def init (n : Nat) : Semaphore α := ⟨n, []⟩

/-- Take a slot, or join the waiters; the flag says which. -/
def acquire (s : Semaphore α) (a : α) : Semaphore α × Bool :=
  if 0 < s.value ∧ s.waiters.isEmpty then ({ s with value := s.value - 1 }, true)
  else ({ s with waiters := s.waiters ++ [(a, false)] }, false)

/-- Hand a slot to the first waiter without one. -/
def grantFirst : List (α × Bool) → Option (List (α × Bool))
  | [] => none
  | (a, false) :: ws => some ((a, true) :: ws)
  | (a, true) :: ws => (grantFirst ws).map (fun ws' => (a, true) :: ws')

/-- A free slot goes to the next waiter, if there is one. -/
def wakeNext (s : Semaphore α) : Option (Semaphore α) :=
  (grantFirst s.waiters).map (fun ws => ⟨s.value - 1, ws⟩)

def release (s : Semaphore α) : Semaphore α :=
  let s' := { s with value := s.value + 1 }
  s'.wakeNext.getD s'

/-- As many of the free slots as there are waiters for. -/
def wakeAll : Nat → Semaphore α → Semaphore α
  | 0, s => s
  | n + 1, s =>
      match s.wakeNext with
      | none => s
      | some s' => wakeAll n s'

/-- Waiter `i`, which has a slot, runs. -/
def resume (s : Semaphore α) (i : Nat) : Option (α × Semaphore α) :=
  match s.waiters[i]? with
  | some (a, true) => some (a, wakeAll s.value ⟨s.value, s.waiters.eraseIdx i⟩)
  | _ => none

/-- Waiter `i` is cancelled and gives back the slot it may have. -/
def abandon (s : Semaphore α) (i : Nat) : Option (Semaphore α) :=
  match s.waiters[i]? with
  | none => none
  | some (_, granted) =>
      let free := if granted then s.value + 1 else s.value
      some (wakeAll free ⟨free, s.waiters.eraseIdx i⟩)

/-- Who waits, in order. -/
def waiting (s : Semaphore α) : List α := s.waiters.map Prod.fst

/-- The waiters that have a slot. -/
def granted (s : Semaphore α) : Nat := s.waiters.countP (fun w => w.2)

/-- The slots that are free or handed to a waiter. -/
def available (s : Semaphore α) : Nat := s.value + s.granted

/-! ## Waking -/

theorem grantFirst_spec {ws ws' : List (α × Bool)} (h : grantFirst ws = some ws') :
    ws'.map Prod.fst = ws.map Prod.fst ∧
      ws'.countP (fun w => w.2) = ws.countP (fun w => w.2) + 1 := by
  induction ws generalizing ws' with
  | nil => cases h
  | cons w ws ih =>
    obtain ⟨a, g⟩ := w
    cases g with
    | false =>
      cases h
      simp
    | true =>
      simp only [grantFirst, Option.map_eq_some_iff] at h
      obtain ⟨ws'', hws, rfl⟩ := h
      obtain ⟨hmap, hcount⟩ := ih hws
      simp [hmap, hcount]

theorem wakeNext_spec {s s' : Semaphore α} (hv : 0 < s.value) (h : s.wakeNext = some s') :
    s'.waiting = s.waiting ∧ s'.available = s.available := by
  simp only [wakeNext, Option.map_eq_some_iff] at h
  obtain ⟨ws, hws, rfl⟩ := h
  obtain ⟨hmap, hcount⟩ := grantFirst_spec hws
  refine ⟨hmap, ?_⟩
  simp only [available, granted, hcount]
  omega

theorem wakeAll_spec (n : Nat) (s : Semaphore α) (hn : n ≤ s.value) :
    (wakeAll n s).waiting = s.waiting ∧ (wakeAll n s).available = s.available := by
  induction n generalizing s with
  | zero => exact ⟨rfl, rfl⟩
  | succ n ih =>
    cases hw : s.wakeNext with
    | none => simp [wakeAll, hw]
    | some s' =>
      have hv : s'.value = s.value - 1 := by
        simp only [wakeNext, Option.map_eq_some_iff] at hw
        obtain ⟨ws, _, rfl⟩ := hw
        rfl
      obtain ⟨hwaiting, havailable⟩ := wakeNext_spec (by omega) hw
      obtain ⟨ihw, iha⟩ := ih s' (by omega)
      simp only [wakeAll, hw]
      exact ⟨ihw.trans hwaiting, iha.trans havailable⟩

/-! ## What the operations do to the slots and the waiters -/

theorem acquire_true {s s' : Semaphore α} {a : α} (h : s.acquire a = (s', true)) :
    s'.waiting = s.waiting ∧ s'.available + 1 = s.available := by
  unfold acquire at h
  split at h
  · rename_i hv
    cases h
    refine ⟨rfl, ?_⟩
    simp only [available, granted]
    omega
  · cases h

theorem acquire_false {s s' : Semaphore α} {a : α} (h : s.acquire a = (s', false)) :
    s'.waiting = s.waiting ++ [a] ∧ s'.available = s.available := by
  unfold acquire at h
  split at h
  · cases h
  · cases h
    simp [waiting, available, granted]

theorem release_spec (s : Semaphore α) :
    s.release.waiting = s.waiting ∧ s.release.available = s.available + 1 := by
  have hfree : ({ s with value := s.value + 1 } : Semaphore α).available = s.available + 1 := by
    simp only [available, granted]
    omega
  cases hw : ({ s with value := s.value + 1 } : Semaphore α).wakeNext with
  | none =>
    simp only [release, hw, Option.getD_none]
    exact ⟨rfl, hfree⟩
  | some s' =>
    obtain ⟨hwaiting, havailable⟩ := wakeNext_spec (Nat.succ_pos _) hw
    simp only [release, hw, Option.getD_some]
    exact ⟨hwaiting, havailable.trans hfree⟩

theorem release_waiters_nil {s : Semaphore α} (h : s.waiters = []) : s.release.waiters = [] := by
  simp [release, wakeNext, grantFirst, h]

/-- The waiters are the one that leaves and the rest. -/
theorem perm_cons_eraseIdx {ws : List (α × Bool)} {i : Nat} {w : α × Bool}
    (h : ws[i]? = some w) : ws.Perm (w :: ws.eraseIdx i) := by
  obtain ⟨hlt, hget⟩ := List.getElem?_eq_some_iff.mp h
  rw [← hget]
  exact (List.getElem_cons_eraseIdx_perm hlt).symm

theorem resume_spec {s s' : Semaphore α} {i : Nat} {a : α} (h : s.resume i = some (a, s')) :
    s.waiting.Perm (a :: s'.waiting) ∧ s'.available + 1 = s.available := by
  unfold resume at h
  split at h
  · rename_i b hi
    cases h
    obtain ⟨hwaiting, havailable⟩ :=
      wakeAll_spec s.value ⟨s.value, s.waiters.eraseIdx i⟩ (Nat.le_refl _)
    rw [hwaiting, havailable]
    have hperm := perm_cons_eraseIdx hi
    refine ⟨hperm.map Prod.fst, ?_⟩
    have hcount := hperm.countP_eq (fun w => w.2)
    simp only [List.countP_cons_of_pos] at hcount
    simp only [available, granted]
    omega
  · cases h

/-- The others keep their places. -/
theorem resume_waiting {s s' : Semaphore α} {i : Nat} {a : α} (h : s.resume i = some (a, s')) :
    s.waiting[i]? = some a ∧ s'.waiting = s.waiting.eraseIdx i := by
  unfold resume at h
  split at h
  · rename_i b hi
    cases h
    obtain ⟨hwaiting, _⟩ := wakeAll_spec s.value ⟨s.value, s.waiters.eraseIdx i⟩ (Nat.le_refl _)
    refine ⟨by simp [waiting, hi], hwaiting.trans ?_⟩
    simp [waiting, List.eraseIdx_map]
  · cases h

/-- A waiter that has a slot can run. -/
theorem exists_resume {s : Semaphore α} {w : α × Bool} (hw : w ∈ s.waiters) (hg : w.2 = true) :
    ∃ i a s', s.resume i = some (a, s') := by
  obtain ⟨i, hi⟩ := List.mem_iff_getElem?.mp hw
  obtain ⟨a, g⟩ := w
  cases hg
  exact ⟨i, a, wakeAll s.value ⟨s.value, s.waiters.eraseIdx i⟩, by simp only [resume, hi]⟩

/-- A waiter that is cancelled takes no slot with it. -/
theorem abandon_available {s s' : Semaphore α} {i : Nat} (h : s.abandon i = some s') :
    s'.available = s.available := by
  unfold abandon at h
  split at h
  · cases h
  · rename_i a granted hi
    have hcount := (perm_cons_eraseIdx hi).countP_eq (fun w => w.2)
    cases h
    cases granted with
    | true =>
      refine (wakeAll_spec (s.value + 1) ⟨s.value + 1, s.waiters.eraseIdx i⟩ (Nat.le_refl _)).2.trans ?_
      simp only [List.countP_cons_of_pos] at hcount
      simp only [available, Semaphore.granted]
      omega
    | false =>
      refine (wakeAll_spec s.value ⟨s.value, s.waiters.eraseIdx i⟩ (Nat.le_refl _)).2.trans ?_
      simp only [List.countP_cons, Bool.false_eq_true, if_false, Nat.add_zero] at hcount
      simp only [available, Semaphore.granted]
      omega

/-! ## No slot is left lying -/

/-- A free slot is there only if nobody waits or a waiter with a slot is
about to run. -/
def Handed (s : Semaphore α) : Prop :=
  s.value = 0 ∨ s.waiters = [] ∨ ∃ w ∈ s.waiters, w.2 = true

theorem handed_init (n : Nat) : (init n : Semaphore α).Handed := Or.inr (Or.inl rfl)

/-- If no slot can be handed on, all waiters have one. -/
theorem grantFirst_none {ws : List (α × Bool)} (h : grantFirst ws = none) :
    ∀ w ∈ ws, w.2 = true := by
  induction ws with
  | nil => simp
  | cons w ws ih =>
    obtain ⟨a, g⟩ := w
    cases g with
    | false => cases h
    | true =>
      simp only [grantFirst, Option.map_eq_none_iff] at h
      simpa using ih h

/-- A slot that was handed on is with a waiter. -/
theorem grantFirst_some {ws ws' : List (α × Bool)} (h : grantFirst ws = some ws') :
    ∃ w ∈ ws', w.2 = true := by
  cases ws with
  | nil => cases h
  | cons w ws =>
    obtain ⟨a, g⟩ := w
    cases g with
    | false =>
      cases h
      exact ⟨(a, true), by simp, rfl⟩
    | true =>
      simp only [grantFirst, Option.map_eq_some_iff] at h
      obtain ⟨ws'', _, rfl⟩ := h
      exact ⟨(a, true), by simp, rfl⟩

theorem handed_of_wakeNext_none {s : Semaphore α} (h : s.wakeNext = none) : s.Handed := by
  simp only [wakeNext, Option.map_eq_none_iff] at h
  cases hw : s.waiters with
  | nil => exact Or.inr (Or.inl hw)
  | cons w ws =>
    have hmem : w ∈ s.waiters := by rw [hw]; exact List.mem_cons_self ..
    exact Or.inr (Or.inr ⟨w, hmem, grantFirst_none h w hmem⟩)

theorem handed_of_wakeNext_some {s s' : Semaphore α} (h : s.wakeNext = some s') : s'.Handed := by
  simp only [wakeNext, Option.map_eq_some_iff] at h
  obtain ⟨ws, hws, rfl⟩ := h
  exact Or.inr (Or.inr (grantFirst_some hws))

/-- Handing out all free slots leaves none lying. -/
theorem handed_wakeAll (n : Nat) (s : Semaphore α) (hn : s.value ≤ n) : (wakeAll n s).Handed := by
  induction n generalizing s with
  | zero => exact Or.inl (Nat.le_zero.mp hn)
  | succ n ih =>
    cases hw : s.wakeNext with
    | none =>
      simp only [wakeAll, hw]
      exact handed_of_wakeNext_none hw
    | some s' =>
      simp only [wakeAll, hw]
      refine ih s' ?_
      simp only [wakeNext, Option.map_eq_some_iff] at hw
      obtain ⟨ws, _, rfl⟩ := hw
      exact Nat.sub_le_of_le_add hn

theorem Handed.acquire {s : Semaphore α} (h : s.Handed) (a : α) : (s.acquire a).1.Handed := by
  unfold Semaphore.acquire
  split
  · rename_i hfree
    exact Or.inr (Or.inl (List.isEmpty_iff.mp hfree.2))
  · rename_i hfull
    rcases h with hv | hempty | ⟨w, hw, hg⟩
    · exact Or.inl hv
    · refine Or.inl ?_
      simp only [hempty, List.isEmpty_nil, and_true] at hfull
      exact Nat.eq_zero_of_not_pos hfull
    · exact Or.inr (Or.inr ⟨w, List.mem_append_left _ hw, hg⟩)

theorem handed_release (s : Semaphore α) : s.release.Handed := by
  cases hw : ({ s with value := s.value + 1 } : Semaphore α).wakeNext with
  | none =>
    simp only [release, hw, Option.getD_none]
    exact handed_of_wakeNext_none hw
  | some s' =>
    simp only [release, hw, Option.getD_some]
    exact handed_of_wakeNext_some hw

theorem handed_resume {s s' : Semaphore α} {i : Nat} {a : α} (h : s.resume i = some (a, s')) :
    s'.Handed := by
  unfold resume at h
  split at h
  · cases h
    exact handed_wakeAll _ _ (Nat.le_refl _)
  · cases h

theorem handed_abandon {s s' : Semaphore α} {i : Nat} (h : s.abandon i = some s') :
    s'.Handed := by
  unfold abandon at h
  split at h
  · cases h
  · cases h
    exact handed_wakeAll _ _ (Nat.le_refl _)

/-! ## Waiters without hope -/

/-- There is no slot, neither free nor handed to a waiter. -/
def Dry (s : Semaphore α) : Prop := s.value = 0 ∧ ∀ w ∈ s.waiters, w.2 = false

theorem Handed.dry {s : Semaphore α} (h : s.Handed) (hne : s.waiters ≠ [])
    (hnone : ∀ w ∈ s.waiters, w.2 = false) : s.Dry := by
  rcases h with hv | hempty | ⟨w, hw, hg⟩
  · exact ⟨hv, hnone⟩
  · exact absurd hempty hne
  · rw [hnone w hw] at hg
    cases hg

theorem Dry.resume {s : Semaphore α} (h : s.Dry) (i : Nat) : s.resume i = none := by
  unfold Semaphore.resume
  split
  · rename_i a hi
    have hg := h.2 _ (List.mem_of_getElem? hi)
    cases hg
  · rfl

theorem Dry.abandon {s s' : Semaphore α} (h : s.Dry) {i : Nat} (ha : s.abandon i = some s') :
    s'.Dry := by
  unfold Semaphore.abandon at ha
  split at ha
  · cases ha
  · rename_i b granted hi
    have hg : granted = false := h.2 _ (List.mem_of_getElem? hi)
    subst hg
    simp only [Bool.false_eq_true, if_false, h.1] at ha
    cases ha
    exact ⟨rfl, fun w hw => h.2 w (List.mem_of_mem_eraseIdx hw)⟩

end Semaphore

end Lib
