/-
Memnode.Peers.Registry — `PeerManager.peers` and the read loops.

A connection is registered under its peer's identity, its read loop
looks the identity up and drives the multiplexer it finds there, and when
that ends it removes the identity. All three go by identity, none by
connection, and each is one section under the registry lock; the
lookup and the removal are separated from what precedes them by awaits.

`Good` is what the registry is for: an identity leads to its most recent
live connection, and each read loop drives its own multiplexer. It is not
an invariant. `good_step_iff` says when one step keeps it, and
`registry_good_iff` follows by induction: all states of a run are good
exactly when every lookup is made by the most recent live connection of
its identity and every removal by the only one.
-/
import Memnode.Lib.Dict

set_option linter.unusedSectionVars false

namespace Memnode.Peers

open Lib

/-- Where the read loop of a connection is. `mux` is the connection whose
multiplexer it drives. -/
inductive Phase where
  /-- in the registry, before the lookup of `_read_loop` -/
  | registered
  /-- inside `mux.run()` -/
  | driving (mux : Nat)
  /-- `mux.run()` has ended and the multiplexer is closed -/
  | leaving (mux : Nat)
  /-- `_read_loop` has returned -/
  | ended
  deriving DecidableEq

structure Connection (κ : Type) where
  identity : κ
  phase : Phase

/-- The registry, and the connections in the order they were registered.
An entry of `peers` names the connection whose `PeerInfo` it is. -/
structure PeerManager (κ : Type) [DecidableEq κ] where
  peers : Dict κ Nat
  connections : List (Connection κ)

/-- What can happen to the registry. -/
inductive Event (κ : Type) where
  /-- `_register`, after a handshake in either direction -/
  | register (identity : κ)
  /-- `_read_loop` of connection `c` looks its identity up -/
  | start (c : Nat)
  /-- `mux.run()` ends for the read loop of connection `c`, which closes the mux -/
  | leave (c : Nat)
  /-- the read loop of connection `c` removes its identity -/
  | remove (c : Nat)

variable {κ : Type} [DecidableEq κ]

namespace PeerManager

def empty : PeerManager κ := ⟨Dict.empty, []⟩

/-- Connection `c` moves on. -/
def setPhase (g : PeerManager κ) (c : Nat) (k : κ) (phase : Phase) : PeerManager κ :=
  { g with connections := g.connections.set c ⟨k, phase⟩ }

/-- One event; `none` if it cannot happen now. -/
def step (g : PeerManager κ) : Event κ → Option (PeerManager κ)
  | .register k =>
      some ⟨g.peers.set k g.connections.length, g.connections ++ [⟨k, .registered⟩]⟩
  | .start c =>
      match g.connections[c]? with
      | some ⟨k, .registered⟩ =>
          match g.peers.get k with
          | none => some (g.setPhase c k .ended)
          | some mux => some (g.setPhase c k (.driving mux))
      | _ => none
  | .leave c =>
      match g.connections[c]? with
      | some ⟨k, .driving mux⟩ => some (g.setPhase c k (.leaving mux))
      | _ => none
  | .remove c =>
      match g.connections[c]? with
      | some ⟨k, .leaving _⟩ => some { g.setPhase c k .ended with peers := g.peers.erase k }
      | _ => none

/-- Connection `c` of identity `k` is registered and has not ended. -/
def Live (g : PeerManager κ) (k : κ) (c : Nat) : Prop :=
  ∃ phase, g.connections[c]? = some ⟨k, phase⟩ ∧ phase ≠ .ended

/-- The registry leads to the most recent live connection of each
identity, and each read loop drives its own connection's multiplexer. -/
structure Good (g : PeerManager κ) : Prop where
  present : ∀ k, (∃ c, g.peers.get k = some c) ↔ ∃ c, g.Live k c
  latest : ∀ k c, g.peers.get k = some c → g.Live k c ∧ ∀ d, g.Live k d → d ≤ c
  own : ∀ (c : Nat) (k : κ) (mux : Nat), g.connections[c]? = some ⟨k, .driving mux⟩ ∨
    g.connections[c]? = some ⟨k, .leaving mux⟩ → mux = c

/-- A lookup by the most recent live connection of its identity, a removal
by the only one. -/
def Alone (g : PeerManager κ) : Event κ → Prop
  | .register _ => True
  | .start c => ∀ k, g.Live k c → ∀ d, g.Live k d → d ≤ c
  | .leave _ => True
  | .remove c => ∀ k, g.Live k c → ∀ d, g.Live k d → d = c

/-! ## One step -/

/-- Another phase of one connection leaves the others as they were. -/
theorem getElem?_setPhase {g : PeerManager κ} {c : Nat} {k : κ} {x : Connection κ}
    (hc : g.connections[c]? = some x) (phase : Phase) (d : Nat) :
    (g.setPhase c k phase).connections[d]? = if d = c then some ⟨k, phase⟩ else g.connections[d]? := by
  have hlt : c < g.connections.length := (List.getElem?_eq_some_iff.mp hc).1
  by_cases hd : d = c
  · subst hd
    simp [setPhase, hlt]
  · simp [setPhase, hd, Ne.symm hd]

/-- Moving to another live phase changes nobody's liveness. -/
theorem live_setPhase {g : PeerManager κ} {c : Nat} {k : κ} {old new : Phase}
    (hc : g.connections[c]? = some ⟨k, old⟩) (hold : old ≠ .ended) (hnew : new ≠ .ended)
    (k' : κ) (d : Nat) : (g.setPhase c k new).Live k' d ↔ g.Live k' d := by
  unfold Live
  rw [getElem?_setPhase hc]
  by_cases hd : d = c
  · subst hd
    rw [if_pos rfl, hc]
    constructor
    · rintro ⟨phase, heq, _⟩
      cases heq
      exact ⟨old, rfl, hold⟩
    · rintro ⟨phase, heq, _⟩
      cases heq
      exact ⟨new, rfl, hnew⟩
  · rw [if_neg hd]

/-- After the end of a connection the others are live as before. -/
theorem live_setPhase_ended {g : PeerManager κ} {c : Nat} {k : κ} {old : Phase}
    (hc : g.connections[c]? = some ⟨k, old⟩) (k' : κ) (d : Nat) :
    (g.setPhase c k .ended).Live k' d ↔ d ≠ c ∧ g.Live k' d := by
  unfold Live
  rw [getElem?_setPhase hc]
  by_cases hd : d = c
  · subst hd
    rw [if_pos rfl]
    constructor
    · rintro ⟨phase, heq, hne⟩
      cases heq
      exact absurd rfl hne
    · rintro ⟨hne, _⟩
      exact absurd rfl hne
  · rw [if_neg hd]
    simp [hd]

/-- A good registry stays good when only a live phase changed and the loop
drives its own multiplexer. -/
theorem Good.setPhase {g : PeerManager κ} (h : g.Good) {c : Nat} {k : κ} {old new : Phase}
    (hc : g.connections[c]? = some ⟨k, old⟩) (hold : old ≠ .ended) (hnew : new ≠ .ended)
    (hown : ∀ mux, new = .driving mux ∨ new = .leaving mux → mux = c) : (g.setPhase c k new).Good := by
  have hlive := live_setPhase hc hold hnew
  refine ⟨fun k' => ?_, fun k' d hd => ?_, fun d k' mux hd => ?_⟩
  · rw [show (g.setPhase c k new).peers = g.peers from rfl, h.present k']
    exact exists_congr (fun d => (hlive k' d).symm)
  · obtain ⟨hl, hmax⟩ := h.latest k' d hd
    exact ⟨(hlive k' d).mpr hl, fun d' hd' => hmax d' ((hlive k' d').mp hd')⟩
  · rw [getElem?_setPhase hc] at hd
    by_cases hdc : d = c
    · rw [if_pos hdc] at hd
      rw [hdc]
      refine hown mux ?_
      rcases hd with hd | hd <;> cases hd
      · exact Or.inl rfl
      · exact Or.inr rfl
    · rw [if_neg hdc] at hd
      exact h.own d k' mux hd

theorem Good.register {g : PeerManager κ} (h : g.Good) (k : κ) :
    Good ⟨g.peers.set k g.connections.length, g.connections ++ [⟨k, .registered⟩]⟩ := by
  have hlive : ∀ k' d, Live ⟨g.peers.set k g.connections.length, g.connections ++ [⟨k, .registered⟩]⟩
      k' d ↔ (k' = k ∧ d = g.connections.length) ∨ g.Live k' d := by
    intro k' d
    unfold Live
    simp only [List.getElem?_append, List.getElem?_singleton]
    by_cases hlt : d < g.connections.length
    · simp only [hlt, if_true]
      constructor
      · exact Or.inr
      · rintro (⟨_, rfl⟩ | hd)
        · exact absurd hlt (Nat.lt_irrefl _)
        · exact hd
    · simp only [hlt, if_false]
      have hnone : g.connections[d]? = none := List.getElem?_eq_none (Nat.le_of_not_lt hlt)
      constructor
      · rintro ⟨phase, hd, _⟩
        split at hd
        · rename_i hzero
          cases hd
          exact Or.inl ⟨rfl, by omega⟩
        · cases hd
      · rintro (⟨rfl, rfl⟩ | ⟨phase, hd, _⟩)
        · exact ⟨.registered, by simp, by simp⟩
        · rw [hnone] at hd
          cases hd
  refine ⟨fun k' => ?_, fun k' d hd => ?_, fun d k' mux hd => ?_⟩
  · rw [Dict.get_set]
    by_cases hk : k' = k
    · simp only [hk, if_true]
      exact ⟨fun _ => ⟨_, (hlive k _).mpr (Or.inl ⟨rfl, rfl⟩)⟩, fun _ => ⟨_, rfl⟩⟩
    · simp only [hk, if_false, h.present k']
      exact exists_congr (fun d => by rw [hlive]; simp [hk])
  · rw [Dict.get_set] at hd
    by_cases hk : k' = k
    · simp only [hk, if_true, Option.some.injEq] at hd
      subst hk hd
      refine ⟨(hlive _ _).mpr (Or.inl ⟨rfl, rfl⟩), fun d' hd' => ?_⟩
      rcases (hlive _ d').mp hd' with ⟨_, rfl⟩ | ⟨phase, hd', _⟩
      · exact Nat.le_refl _
      · exact Nat.le_of_lt (List.getElem?_eq_some_iff.mp hd').1
    · simp only [hk, if_false] at hd
      obtain ⟨hl, hmax⟩ := h.latest k' d hd
      refine ⟨(hlive _ _).mpr (Or.inr hl), fun d' hd' => ?_⟩
      rcases (hlive _ d').mp hd' with ⟨hkk, _⟩ | hd'
      · exact absurd hkk hk
      · exact hmax d' hd'
  · refine h.own d k' mux ?_
    simp only [List.getElem?_append, List.getElem?_singleton] at hd
    by_cases hlt : d < g.connections.length
    · simpa only [hlt, if_true] using hd
    · simp only [hlt, if_false] at hd
      rcases hd with hd | hd <;> split at hd <;> cases hd

/-- The removal by the only live connection of an identity. -/
theorem Good.remove {g : PeerManager κ} (h : g.Good) {c : Nat} {k : κ} {mux : Nat}
    (hc : g.connections[c]? = some ⟨k, .leaving mux⟩) (honly : ∀ d, g.Live k d → d = c) :
    Good { g.setPhase c k .ended with peers := g.peers.erase k } := by
  have hlive := live_setPhase_ended (k := k) hc
  have hlive' : ∀ k' d, Live { g.setPhase c k .ended with peers := g.peers.erase k } k' d ↔
      d ≠ c ∧ g.Live k' d := hlive
  refine ⟨fun k' => ?_, fun k' d hd => ?_, fun d k' mux' hd => ?_⟩
  · show (∃ e, (g.peers.erase k).get k' = some e) ↔ _
    rw [Dict.get_erase]
    by_cases hk : k' = k
    · subst hk
      simp only [if_true]
      constructor
      · rintro ⟨e, he⟩; cases he
      · rintro ⟨d, hd⟩
        obtain ⟨hne, hl⟩ := (hlive' _ d).mp hd
        exact absurd (honly d hl) hne
    · simp only [hk, if_false, h.present k']
      refine exists_congr (fun d => ?_)
      rw [hlive']
      refine ⟨fun hl => ⟨?_, hl⟩, fun hl => hl.2⟩
      rintro rfl
      obtain ⟨phase, hd, _⟩ := hl
      rw [hc] at hd
      cases hd
      exact hk rfl
  · have hd' : (g.peers.erase k).get k' = some d := hd
    rw [Dict.get_erase] at hd'
    by_cases hk : k' = k
    · simp [hk] at hd'
    · simp only [hk, if_false] at hd'
      obtain ⟨hl, hmax⟩ := h.latest k' d hd'
      refine ⟨(hlive' _ _).mpr ⟨?_, hl⟩, fun e he => hmax e ((hlive' _ _).mp he).2⟩
      rintro rfl
      obtain ⟨phase, hd, _⟩ := hl
      rw [hc] at hd
      cases hd
      exact hk rfl
  · rw [show ({ g.setPhase c k .ended with peers := g.peers.erase k } : PeerManager κ).connections[d]?
        = (g.setPhase c k .ended).connections[d]? from rfl, getElem?_setPhase hc] at hd
    by_cases hdc : d = c
    · rw [if_pos hdc] at hd
      rcases hd with hd | hd <;> cases hd
    · rw [if_neg hdc] at hd
      exact h.own d k' mux' hd

/-- From a good registry, a step leads to a good one exactly when it is a
lookup or a removal by the right connection, or neither. -/
theorem good_step_iff {g g' : PeerManager κ} {e : Event κ} (h : g.Good) (hs : g.step e = some g') :
    g'.Good ↔ g.Alone e := by
  cases e with
  | register k =>
    cases hs
    exact ⟨fun _ => trivial, fun _ => h.register k⟩
  | start c =>
    simp only [step] at hs
    split at hs
    · rename_i k hc
      have hlive : g.Live k c := ⟨.registered, hc, by simp⟩
      obtain ⟨mux, hmux⟩ := (h.present k).mpr ⟨c, hlive⟩
      rw [hmux] at hs
      cases hs
      obtain ⟨hl, hmax⟩ := h.latest k mux hmux
      constructor
      · intro hgood k' hk' d hd
        have hkk : k' = k := by
          obtain ⟨phase, hc', _⟩ := hk'
          rw [hc] at hc'
          cases hc'
          rfl
        subst hkk
        have hown : mux = c := hgood.own c _ mux (Or.inl (by rw [getElem?_setPhase hc, if_pos rfl]))
        exact hown ▸ hmax d hd
      · intro halone
        have hown : mux = c := Nat.le_antisymm (halone k hlive mux hl) (hmax c hlive)
        refine h.setPhase hc (by simp) (by simp) (fun m hm => ?_)
        rcases hm with hm | hm <;> cases hm
        exact hown
    · cases hs
  | leave c =>
    simp only [step] at hs
    split at hs
    · rename_i k mux hc
      cases hs
      refine ⟨fun _ => trivial, fun _ => h.setPhase hc (by simp) (by simp) (fun m hm => ?_)⟩
      rcases hm with hm | hm <;> cases hm
      exact h.own c k mux (Or.inl hc)
    · cases hs
  | remove c =>
    simp only [step] at hs
    split at hs
    · rename_i k mux hc
      cases hs
      have hident : ∀ k', g.Live k' c → k' = k := by
        rintro k' ⟨phase, hc', _⟩
        rw [hc] at hc'
        cases hc'
        rfl
      constructor
      · intro hgood k' hk' d hd
        obtain rfl := hident k' hk'
        by_contra hne
        have hlive : Live { g.setPhase c k' .ended with peers := g.peers.erase k' } k' d :=
          (live_setPhase_ended hc k' d).mpr ⟨hne, hd⟩
        obtain ⟨m, hm⟩ := (hgood.present k').mpr ⟨d, hlive⟩
        have hm' : (g.peers.erase k').get k' = some m := hm
        rw [Dict.get_erase_self] at hm'
        cases hm'
      · intro halone
        exact h.remove hc (halone k ⟨.leaving mux, hc, by simp⟩)
    · cases hs

/-! ## Runs -/

/-- A run from the empty registry: each state with the event that left it. -/
inductive Run : List (PeerManager κ × Event κ) → PeerManager κ → Prop where
  | start : Run [] empty
  | step {trace : List (PeerManager κ × Event κ)} {g g' : PeerManager κ} {e : Event κ} :
      Run trace g → g.step e = some g' → Run (trace ++ [(g, e)]) g'

theorem good_empty : Good (empty : PeerManager κ) := by
  refine ⟨fun k => ?_, fun k c h => ?_, fun c k mux h => ?_⟩
  · simp [empty, Live]
  · simp [empty] at h
  · simp [empty] at h

/-- **When the registry does what it is for.** In every run, all states
are good exactly when every lookup was made by the most recent live
connection of its identity and every removal by the only one. -/
theorem registry_good_iff (trace : List (PeerManager κ × Event κ)) (g : PeerManager κ)
    (h : Run trace g) : ((∀ x ∈ trace, x.1.Good) ∧ g.Good) ↔ ∀ x ∈ trace, x.1.Alone x.2 := by
  induction h with
  | start => simp [good_empty]
  | @step trace g g' e _ hs ih =>
    simp only [List.forall_mem_append, List.forall_mem_singleton]
    constructor
    · rintro ⟨⟨hall, hg⟩, hg'⟩
      exact ⟨ih.mp ⟨hall, hg⟩, (good_step_iff hg hs).mp hg'⟩
    · rintro ⟨hall, he⟩
      obtain ⟨hgood, hg⟩ := ih.mpr hall
      exact ⟨⟨hgood, hg⟩, (good_step_iff hg hs).mpr he⟩

/-- One connection, registered, driven and ended. -/
theorem registry_good_iff_single :
    ∃ (trace : List (PeerManager Nat × Event Nat)) (g : PeerManager Nat), Run trace g ∧
      trace.map Prod.snd = [.register 7, .start 0, .leave 0, .remove 0] ∧ g.Good := by
  have hrun := Run.step (e := .remove 0) (Run.step (e := .leave 0) (Run.step (e := .start 0)
    (Run.step (e := .register 7) Run.start rfl) rfl) rfl) rfl
  refine ⟨_, _, hrun, rfl, ((registry_good_iff _ _ hrun).mpr ?_).2⟩
  have honly : ∀ (phase : Phase) (d : Nat) (x : Connection Nat),
      [(⟨7, phase⟩ : Connection Nat)][d]? = some x → d = 0 := by
    intro phase d x hd
    have := (List.getElem?_eq_some_iff.mp hd).1
    simp at this
    omega
  intro x hx
  simp only [List.nil_append, List.cons_append, List.mem_cons, List.not_mem_nil, or_false] at hx
  rcases hx with rfl | rfl | rfl | rfl
  · exact trivial
  · rintro k _ d ⟨phase, hd, _⟩
    exact Nat.le_of_eq (honly _ d _ hd)
  · exact trivial
  · rintro k _ d ⟨phase, hd, _⟩
    exact honly _ d _ hd

/-- Two connections of one peer, as mutual discovery makes them. The end
of the first removes the entry of the second, which is live. -/
theorem second_connection_lost :
    ∃ (trace : List (PeerManager Nat × Event Nat)) (g : PeerManager Nat), Run trace g ∧
      trace.map Prod.snd
        = [.register 7, .start 0, .register 7, .start 1, .leave 0, .remove 0] ∧
      g.Live 7 1 ∧ g.peers.get 7 = none ∧ ¬ g.Good := by
  have hrun := Run.step (e := .remove 0) (Run.step (e := .leave 0) (Run.step (e := .start 1)
    (Run.step (e := .register 7) (Run.step (e := .start 0)
      (Run.step (e := .register 7) Run.start rfl) rfl) rfl) rfl) rfl) rfl
  refine ⟨_, _, hrun, rfl, ⟨.driving 1, rfl, by simp⟩, rfl, fun hgood => ?_⟩
  obtain ⟨c, hc⟩ := (hgood.present 7).mpr ⟨1, .driving 1, rfl, by simp⟩
  cases hc

end PeerManager

end Memnode.Peers
