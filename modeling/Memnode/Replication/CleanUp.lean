/-
Memnode.Replication.CleanUp — what a remote call leaves in the tables.

`store_remote`, `load_remote` and `free_remote` each take their request
id out of some of `_pending`, `_buffers` and `_pull_futures` on the way
out. `load_remote` takes it out of all three. The other two take it out
of `_pending` only, but a chunked BlockData that answers them opens a
buffer and a collector all the same, and nobody removes the collector
again (`calls_clean_up`, `store_leaves_collector`).

  §1 where table entries come from;
  §2 what holds in all runs (`Reachable.cleared`);
  §3 what holds as long as only loads get a buffer (`Reachable.bare`);
  §4 a collector that stays.
-/
import Memnode.Replication.Isolation

namespace Memnode.Replication

open Lib Blocks

variable {K : Type} [DecidableEq K] {I : Interpreter K}

/-- Nothing is left under `k`. -/
structure Coordinator.Clear (c : Coordinator K) (k : K) : Prop where
  pending : c.pending.get k = none
  buffers : c.buffers.get k = none
  pullFutures : c.pullFutures.get k = none

/-! ## §1 Where entries come from -/

section Handled

variable {now : Rat} {c : Coordinator K} {peer : String} {msg : Message} {k : K}

/-- A buffer that was not there has been opened. -/
theorem handled_opens {b : Buffer} (hnone : c.buffers.get k = none)
    (hb : (handleMessage I now c peer msg).coordinator.buffers.get k = some b) :
    Opens I now c msg k := by
  rcases handled_buffer hb with hold | ⟨b₀, _, hf, _⟩ | ⟨f, hopens, _⟩ | ⟨hopens, _⟩
  · cases hnone.symm.trans hold
  · cases hnone.symm.trans hf.buffer
  · exact Or.inl ⟨f, hopens⟩
  · exact Or.inr hopens

end Handled

namespace Hub

variable {hub hub' : Hub K} {e : Event K}

/-- The call has not returned or raised. -/
def InProgress (o : Outgoing) : Prop := ∀ r, o.stand ≠ .over r

/-- A call that is over does not go on. -/
theorem Move.live (h : hub.Move I e hub') {i : Nat} {o o' : Outgoing}
    (ho : hub.calls[i]? = some o) (ho' : hub'.calls[i]? = some o') (hlive : InProgress o') : InProgress o := by
  intro r hover
  have hsame : ∀ {j x}, hub.calls[j]? = some x → x.stand ≠ .over r → j ≠ i := by
    intro j x hx hstand heq
    subst heq
    rw [hx] at ho
    obtain rfl := Option.some.inj ho
    exact hstand hover
  have hkept : hub'.calls[i]? = some o → False := by
    intro heq
    rw [heq] at ho'
    obtain rfl := Option.some.inj ho'
    exact hlive r hover
  cases h with
  | called =>
    have hlt : i < hub.calls.length := (List.getElem?_eq_some_iff.mp ho).1
    exact hkept (by rw [List.getElem?_append_left hlt, ho])
  | out hx hs =>
    have hne := hsame hx (by simp [hs])
    unfold Hub.out at hkept
    split at hkept
    · exact hkept (by rw [List.getElem?_set_ne hne, ho])
    · exact hkept (by rw [List.getElem?_set_ne hne, ho])
  | pulling hx hs => exact hkept (by rw [List.getElem?_set_ne (hsame hx (by simp [hs])), ho])
  | abandoned hx hs => exact hkept (by rw [List.getElem?_set_ne (hsame hx (by simp [hs])), ho])
  | finished _ hx _ hlive' =>
    exact hkept (by rw [finish, List.getElem?_set_ne (hsame hx (hlive' r)), ho])
  | received =>
    rw [calls_receive, ho] at ho'
    obtain rfl := Option.some.inj ho'
    exact hlive r ((o.same_settle _).stand.trans hover)
  | _ => exact hkept ho

/-- `send_to` of `free_remote` raised. -/
structure Forsaken (hub : Hub K) (e : Event K) (i : Nat) (o : Outgoing) : Prop where
  event : e = .raise i
  call : hub.calls[i]? = some o
  ask : o.ask = .free
  stand : o.stand = .sending

/-- A call that is over was over before, or this is its end. -/
theorem Move.ended (h : hub.Move I e hub') {i : Nat} {o' : Outgoing} {r : Returned}
    (ho' : hub'.calls[i]? = some o') (hover : o'.stand = .over r) :
    (∃ o, hub.calls[i]? = some o ∧ o.Later o' ∧ o.stand = .over r) ∨
      ∃ o, hub.calls[i]? = some o ∧ InProgress o ∧ o'.reqId = o.reqId ∧ o'.ask = o.ask ∧
        (hub' = hub.finish I i o r ∨ (hub.Forsaken e i o ∧ r = .raised)) := by
  have hsame : hub.calls[i]? = some o' →
      ∃ o, hub.calls[i]? = some o ∧ o.Later o' ∧ o.stand = .over r :=
    fun ho => ⟨o', ho, (Outgoing.Kept.refl o').later, hover⟩
  cases h with
  | called =>
    by_cases hlt : i < hub.calls.length
    · rw [List.getElem?_append_left hlt] at ho'
      exact Or.inl (hsame ho')
    · rw [List.getElem?_append_right (Nat.le_of_not_lt hlt)] at ho'
      rw [List.mem_singleton.mp (List.mem_of_getElem? ho')] at hover
      cases hover
  | out =>
    unfold Hub.out at ho'
    split at ho'
    · rcases of_set ho' with ⟨_, rfl⟩ | ⟨_, hold⟩
      · cases hover
      · exact Or.inl (hsame hold)
    · rcases of_set ho' with ⟨_, rfl⟩ | ⟨_, hold⟩
      · cases hover
      · exact Or.inl (hsame hold)
  | pulling =>
    rcases of_set ho' with ⟨_, rfl⟩ | ⟨_, hold⟩
    · cases hover
    · exact Or.inl (hsame hold)
  | @finished _ j x _ hx r' hlive =>
    rcases of_set ho' with ⟨rfl, rfl⟩ | ⟨_, hold⟩
    · cases hover
      exact Or.inr ⟨x, hx, hlive, rfl, rfl, Or.inl rfl⟩
    · exact Or.inl (hsame hold)
  | @abandoned j x hx hs hask =>
    rcases of_set ho' with ⟨rfl, rfl⟩ | ⟨_, hold⟩
    · cases hover
      exact Or.inr ⟨x, hx, by simp [InProgress, hs], rfl, rfl, Or.inr ⟨⟨rfl, hx, hask, hs⟩, rfl⟩⟩
    · exact Or.inl (hsame hold)
  | received =>
    rw [calls_receive] at ho'
    obtain ⟨o, ho, rfl⟩ := Option.map_eq_some_iff.mp ho'
    exact Or.inl ⟨o, ho, o.settle_later i _, (o.same_settle _).stand.symm.trans hover⟩
  | _ => exact Or.inl (hsame ho')

/-- An entry of `_pending` was there before, or belongs to a call that
is not over. -/
theorem Move.pending_get (h : hub.Move I e hub') {k : K} {f : Nat}
    (hf : hub'.coordinator.pending.get k = some f) :
    hub.coordinator.pending.get k = some f ∨
      ∃ o, hub'.calls[f]? = some o ∧ I.strKey o.reqId = k ∧ InProgress o := by
  cases h with
  | called =>
    simp only [Dict.get_set] at hf
    split at hf
    · rename_i hk
      obtain rfl := Option.some.inj hf
      exact Or.inr ⟨_, List.getElem?_concat_length, hk.symm, by simp [InProgress]⟩
    · exact Or.inl hf
  | @out i x hx =>
    by_cases hfree : x.ask = .free ∧ hub.coordinator.pending.get (I.strKey x.reqId) = none
    · simp only [Hub.out, if_pos hfree, Dict.get_set] at hf ⊢
      split at hf
      · rename_i hk
        obtain rfl := Option.some.inj hf
        have hlt : i < hub.calls.length := (List.getElem?_eq_some_iff.mp hx).1
        exact Or.inr ⟨_, List.getElem?_set_self hlt, hk.symm, by simp [InProgress]⟩
      · exact Or.inl hf
    · simp only [Hub.out, if_neg hfree] at hf
      exact Or.inl hf
  | finished =>
    simp only [finish, cleanUp_pending, Dict.get_erase] at hf
    split at hf
    · cases hf
    · exact Or.inl hf
  | @received peer _ msg now =>
    left
    rcases handled_pending I now hub.coordinator peer msg with ⟨heq, _⟩ | ⟨k', f', _, heq, _⟩
    · exact heq ▸ hf
    · have hget : (hub.coordinator.pending.erase k').get k = some f := heq ▸ hf
      rw [Dict.get_erase] at hget
      split at hget
      · cases hget
      · exact hget
  | _ => exact Or.inl hf

/-- A collector was there before, or a message has opened it. -/
theorem Move.collector_get (h : hub.Move I e hub') {k : K} {f : Nat}
    (hf : hub'.coordinator.pullFutures.get k = some f) :
    hub.coordinator.pullFutures.get k = some f ∨
      ∃ peer msg now, e = .receive peer msg now ∧ hub' = hub.receive I peer msg now ∧
        OpensPull I now hub.coordinator msg k f := by
  cases h with
  | out =>
    unfold Hub.out at hf
    split at hf <;> exact Or.inl hf
  | finished =>
    unfold finish cleanUp at hf
    split at hf
    · simp only [Dict.get_erase] at hf
      split at hf
      · cases hf
      · exact Or.inl hf
    · exact Or.inl hf
  | @received peer _ msg now =>
    rcases handled_pullFutures hf with hold | hopens
    · exact Or.inl hold
    · exact Or.inr ⟨peer, msg, now, rfl, rfl, hopens⟩
  | _ => exact Or.inl hf

/-- A buffer was there before, or a message has opened it. -/
theorem Move.buffer_get (h : hub.Move I e hub') {k : K} (hnone : hub.coordinator.buffers.get k = none)
    {b : Buffer} (hb : hub'.coordinator.buffers.get k = some b) :
    ∃ peer msg now, e = .receive peer msg now ∧ Opens I now hub.coordinator msg k := by
  rcases h.quiet with ⟨peer, msg, now, rfl, rfl⟩ | hquiet
  · exact ⟨peer, msg, now, rfl, handled_opens hnone hb⟩
  · rw [hquiet.buffer_get hb] at hnone
    cases hnone

/-! ## §2 In all runs -/

/-- A call that is over is not pending, unless it is a free that raised,
and a load that is over has no collector. -/
structure Cleared (I : Interpreter K) (hub : Hub K) : Prop where
  pending : ∀ {i : Nat} {o : Outgoing} {r : Returned}, hub.calls[i]? = some o →
    o.stand = .over r → ¬ (o.ask = .free ∧ r = .raised) →
    hub.coordinator.pending.get (I.strKey o.reqId) = none
  collector : ∀ {i : Nat} {o : Outgoing} {r : Returned}, hub.calls[i]? = some o →
    o.stand = .over r → o.ask = .load → hub.coordinator.pullFutures.get (I.strKey o.reqId) = none

theorem finish_pending (hub : Hub K) (i : Nat) (o : Outgoing) (r : Returned) :
    (hub.finish I i o r).coordinator.pending.get (I.strKey o.reqId) = none := by
  simp [finish, cleanUp_pending]

/-- `load_remote` clears all three tables. -/
theorem finish_clear (hub : Hub K) (i : Nat) {o : Outgoing} (hask : o.ask = .load) (r : Returned) :
    (hub.finish I i o r).coordinator.Clear (I.strKey o.reqId) := by
  refine ⟨hub.finish_pending i o r, ?_, ?_⟩
  · simp [finish, cleanUp, hask]
  · simp [finish, cleanUp, hask]

/-- A call that is over is not pending after an event, if it was not
pending when it was over before and its `send_to` has not raised. -/
theorem Move.settled (hmove : hub.Move I e hub') (hlinked : hub'.Linked I) {i : Nat} {o' : Outgoing}
    {r : Returned} (ho' : hub'.calls[i]? = some o') (hover : o'.stand = .over r)
    (hbefore : ∀ o, hub.calls[i]? = some o → o.Later o' → o.stand = .over r →
      hub.coordinator.pending.get (I.strKey o.reqId) = none)
    (hsends : ∀ o, hub.Forsaken e i o → r = .raised → o'.ask = o.ask → False) :
    hub'.coordinator.pending.get (I.strKey o'.reqId) = none := by
  rw [Option.eq_none_iff_forall_ne_some]
  intro f hf
  rcases hmove.pending_get hf with hold | ⟨x, hx, hkey, hlive⟩
  · rcases hmove.ended ho' hover with ⟨o, ho, hlater, hover'⟩ | ⟨o, ho, _, hreq, hask, rfl | hforsaken⟩
    · rw [hlater.reqId, hbefore o ho hlater hover'] at hold
      cases hold
    · rw [hreq, finish_pending] at hf
      cases hf
    · exact hsends o hforsaken.1 hforsaken.2 hask
  · -- the entry is that of a live call with this very id
    obtain rfl := hlinked.distinct hx ho' (I.strKey_injective hkey)
    rw [ho'] at hx
    obtain rfl := Option.some.inj hx
    exact hlive r hover

theorem Cleared.move (h : hub.Cleared I) (hlinked : hub'.Linked I) (hmove : hub.Move I e hub') :
    hub'.Cleared I where
  pending := by
    intro i o' r ho' hover hother
    refine hmove.settled hlinked ho' hover (fun o ho hlater hover' => ?_) (fun o hforsaken hr hask => ?_)
    · exact h.pending ho hover' (hlater.ask ▸ hother)
    · exact hother ⟨hask.trans hforsaken.ask, hr⟩
  collector := by
    intro i o' r ho' hover hask
    rw [Option.eq_none_iff_forall_ne_some]
    intro f hf
    rcases hmove.ended ho' hover with ⟨o, ho, hlater, hover'⟩ | ⟨o, ho, _, hreq, hask', rfl | hforsaken⟩
    · rw [hlater.reqId] at hf
      have hload : o.ask = .load := hlater.ask ▸ hask
      rcases hmove.collector_get hf with hold | ⟨_, _, _, _, _, hopens⟩
      · rw [h.collector ho hover' hload] at hold
        cases hold
      · have hpending := hopens.pending
        rw [h.pending ho hover' (by simp [hload])] at hpending
        cases hpending
    · rw [hreq, (hub.finish_clear i (hask' ▸ hask) r).pullFutures] at hf
      cases hf
    · cases hask.symm.trans (hask'.trans hforsaken.1.ask)

theorem Reachable.cleared {ok : Hub K → Event K → Prop} (h : Reachable I ok hub) :
    hub.Cleared I := by
  induction h with
  | start hfresh =>
    refine ⟨?_, ?_⟩
    · intro i o r ho
      simp [hfresh.calls] at ho
    · intro i o r ho
      simp [hfresh.calls] at ho
  | step hreach hok hstep ih => exact ih.move (Reachable.step hreach hok hstep).linked (step_moves hstep)

/-! ## §3 When only loads get a buffer -/

/-- No buffer is opened under the id of a store or a free in progress,
or was there when the call drew the id, and `send_to` of a free does not
raise. -/
def OpensForLoads (I : Interpreter K) (hub : Hub K) : Event K → Prop
  | .call _ ask reqId _ => ask ≠ .load → hub.coordinator.buffers.get (I.strKey reqId) = none
  | .receive _ msg now => ∀ (i : Nat) (o : Outgoing), hub.calls[i]? = some o → InProgress o →
      o.ask ≠ .load → ¬ Opens I now hub.coordinator msg (I.strKey o.reqId)
  | .raise i => ∀ o, ¬ hub.Forsaken (.raise i) i o
  | _ => True

/-- A store or a free has no collector, no buffer until it is over, and is
not pending then. -/
structure Bare (I : Interpreter K) (hub : Hub K) : Prop where
  collector : ∀ {i : Nat} {o : Outgoing}, hub.calls[i]? = some o → o.ask ≠ .load →
    hub.coordinator.pullFutures.get (I.strKey o.reqId) = none
  buffer : ∀ {i : Nat} {o : Outgoing}, hub.calls[i]? = some o → o.ask ≠ .load → InProgress o →
    hub.coordinator.buffers.get (I.strKey o.reqId) = none
  pending : ∀ {i : Nat} {o : Outgoing} {r : Returned}, hub.calls[i]? = some o →
    o.stand = .over r → hub.coordinator.pending.get (I.strKey o.reqId) = none

theorem Bare.move (h : hub.Bare I) (hlinked : hub.Linked I) (hlinked' : hub'.Linked I)
    (hok : OpensForLoads I hub e) (hmove : hub.Move I e hub') : hub'.Bare I where
  collector := by
    intro i o' ho' hask
    rw [Option.eq_none_iff_forall_ne_some]
    intro f hf
    rcases hmove.earlier ho' with ⟨o, ho, hlater⟩ | ⟨_, hnew, _, _, _, _, rfl⟩
    · rw [hlater.reqId] at hf
      rw [hlater.ask] at hask
      rcases hmove.collector_get hf with hold | ⟨peer, msg, now, rfl, _, hopens⟩
      · rw [h.collector ho hask] at hold
        cases hold
      · -- a call that is over is not pending, and one that is not gets no buffer
        refine hok i o ho ?_ hask (Or.inl ⟨f, hopens⟩)
        intro r hover
        have hpending := hopens.pending
        rw [h.pending ho hover] at hpending
        cases hpending
    · rcases hmove.collector_get hf with hold | ⟨_, _, _, hevent, _⟩
      · obtain ⟨x, hx, hkey⟩ := hlinked.pullFutures hold
        exact hnew x (List.mem_of_getElem? hx) (I.strKey_injective hkey)
      · cases hevent
  buffer := by
    intro i o' ho' hask hlive
    rw [Option.eq_none_iff_forall_ne_some]
    intro b hb
    rcases hmove.earlier ho' with ⟨o, ho, hlater⟩ | ⟨_, _, _, _, _, _, rfl⟩
    · rw [hlater.reqId] at hb
      rw [hlater.ask] at hask
      have hlive' := hmove.live ho ho' hlive
      obtain ⟨peer, msg, now, rfl, hopens⟩ := hmove.buffer_get (h.buffer ho hask hlive') hb
      exact hok i o ho hlive' hask hopens
    · obtain ⟨_, _, _, hevent, _⟩ := hmove.buffer_get (hok hask) hb
      cases hevent
  pending := by
    intro i o' r ho' hover
    refine hmove.settled hlinked' ho' hover (fun o ho _ hover' => h.pending ho hover') ?_
    intro o hforsaken _ _
    obtain rfl := hforsaken.event
    exact hok o hforsaken

theorem Reachable.bare (h : Reachable I (OpensForLoads I) hub) : hub.Bare I := by
  induction h with
  | start hfresh =>
    refine ⟨?_, ?_, ?_⟩
    · intro i o ho
      simp [hfresh.calls] at ho
    · intro i o ho
      simp [hfresh.calls] at ho
    · intro i o r ho
      simp [hfresh.calls] at ho
  | step hreach hok hstep ih =>
    exact ih.move hreach.linked (Reachable.step hreach hok hstep).linked hok (step_moves hstep)

/-- Call `i` leaves nothing behind: not when it returns or raises, and
no later message makes it pending or opens a collector for it. -/
structure CleansUp (I : Interpreter K) (hub : Hub K) (i : Nat) : Prop where
  atEnd : ∀ {o o' : Outgoing} {e : Event K} {hub' : Hub K} {r : Returned},
    hub.calls[i]? = some o → InProgress o → hub.step I e = some hub' → ¬ hub.Forsaken e i o →
    hub'.calls[i]? = some o' → o'.stand = .over r → hub'.coordinator.Clear (I.strKey o.reqId)
  later : ∀ {o : Outgoing} {r : Returned}, hub.calls[i]? = some o → o.stand = .over r →
    hub.coordinator.pending.get (I.strKey o.reqId) = none ∧
      hub.coordinator.pullFutures.get (I.strKey o.reqId) = none

/-- The end of a live call. -/
theorem finish_of_step {i : Nat} {o o' : Outgoing} {r : Returned} (ho : hub.calls[i]? = some o)
    (hlive : InProgress o) (hstep : hub.step I e = some hub') (hsends : ¬ hub.Forsaken e i o)
    (ho' : hub'.calls[i]? = some o') (hover : o'.stand = .over r) : hub' = hub.finish I i o r := by
  rcases (step_moves hstep).ended ho' hover with ⟨x, hx, _, hx'⟩ | ⟨x, hx, _, _, _, hend⟩
  · rw [ho] at hx
    obtain rfl := Option.some.inj hx
    exact absurd hx' (hlive r)
  · rw [ho] at hx
    obtain rfl := Option.some.inj hx
    rcases hend with heq | hforsaken
    · exact heq
    · exact absurd hforsaken.1 hsends

/-- A load cleans up whatever the peers send. -/
theorem Cleared.load_cleansUp (h : hub.Cleared I) {i : Nat} {x : Outgoing}
    (hx : hub.calls[i]? = some x) (hask : x.ask = .load) : hub.CleansUp I i where
  atEnd := by
    intro o o' e hub' r ho hlive hstep hsends ho' hover
    rw [hx] at ho
    obtain rfl := Option.some.inj ho
    rw [finish_of_step hx hlive hstep hsends ho' hover]
    exact hub.finish_clear i hask r
  later := by
    intro o r ho hover
    rw [hx] at ho
    obtain rfl := Option.some.inj ho
    exact ⟨h.pending hx hover (by simp [hask]), h.collector hx hover hask⟩

/-- A store or a free does as long as it has no buffer. -/
theorem Bare.cleansUp (h : hub.Bare I) {i : Nat} {x : Outgoing}
    (hx : hub.calls[i]? = some x) (hask : x.ask ≠ .load) : hub.CleansUp I i where
  atEnd := by
    intro o o' e hub' r ho hlive hstep hsends ho' hover
    rw [hx] at ho
    obtain rfl := Option.some.inj ho
    rw [finish_of_step hx hlive hstep hsends ho' hover]
    have hrest : (cleanUp hub.coordinator (I.strKey x.reqId) x.ask).buffers = hub.coordinator.buffers ∧
        (cleanUp hub.coordinator (I.strKey x.reqId) x.ask).pullFutures
          = hub.coordinator.pullFutures := by
      cases hkind : x.ask with
      | load => exact absurd hkind hask
      | store => exact ⟨rfl, rfl⟩
      | free => exact ⟨rfl, rfl⟩
    refine ⟨hub.finish_pending i x r, ?_, ?_⟩
    · simp only [finish, hrest.1]
      exact h.buffer hx hask hlive
    · simp only [finish, hrest.2]
      exact h.collector hx hask
  later := by
    intro o r ho hover
    rw [hx] at ho
    obtain rfl := Option.some.inj ho
    exact ⟨h.pending hx hover, h.collector hx hask⟩

/-! ## §4 What stays -/

/-- Only the end of the load it belongs to removes a collector. -/
theorem Linked.collector_stays (h : hub.Linked I) (hmove : hub.Move I e hub') {k : K} {i : Nat}
    (hstays : ∀ o, hub'.calls[i]? = some o → o.ask = .load → InProgress o)
    (hf : hub.coordinator.pullFutures.get k = some i) :
    hub'.coordinator.pullFutures.get k = some i := by
  cases hmove with
  | out =>
    unfold Hub.out
    split <;> exact hf
  | @finished _ j x _ hx r =>
    unfold finish cleanUp
    split
    · rename_i hload
      rw [Dict.get_erase, if_neg]
      · exact hf
      · intro hk
        obtain ⟨y, hy, hkey⟩ := h.pullFutures hf
        obtain rfl := h.distinct hy hx (I.strKey_injective (hkey.trans hk))
        have hlt : i < hub.calls.length := (List.getElem?_eq_some_iff.mp hx).1
        exact hstays _ (List.getElem?_set_self hlt) hload r rfl
    · exact hf
  | @received peer _ msg now =>
    rcases handled_pullFutures_kept now peer msg hf with hsame | ⟨f, hpending, hnew⟩
    · exact hsame
    · obtain ⟨x, hx, hkey⟩ := h.pullFutures hf
      obtain ⟨y, hy, hkey'⟩ := (h.pending hpending).1
      obtain rfl := h.distinct hy hx (I.strKey_injective (hkey'.trans hkey.symm))
      exact hnew
  | _ => exact hf

theorem Reachable.collector_stays (es : List (Event K)) (h : Reachable I Anything hub) {k : K}
    {i : Nat} {o : Outgoing} (ho : hub.calls[i]? = some o) (hask : o.ask ≠ .load)
    (hf : hub.coordinator.pullFutures.get k = some i) (hrun : hub.run I es = some hub') :
    hub'.coordinator.pullFutures.get k = some i := by
  induction es generalizing hub o with
  | nil =>
    obtain rfl := Option.some.inj hrun
    exact hf
  | cons e es ih =>
    obtain ⟨next, hstep, hrest⟩ := Option.bind_eq_some_iff.mp hrun
    have hmove := step_moves hstep
    obtain ⟨o', ho', hlater⟩ := hmove.later ho
    have hask' : o'.ask ≠ .load := hlater.ask ▸ hask
    refine ih (.step h trivial hstep) ho' hask' (h.linked.collector_stays hmove ?_ hf) hrest
    intro x hx hload
    rw [ho'] at hx
    obtain rfl := Option.some.inj hx
    exact absurd hload hask'

/-- A call that still sends is pending until its reply comes. -/
def Registered (I : Interpreter K) (hub : Hub K) : Prop :=
  ∀ {i : Nat} {o : Outgoing}, hub.calls[i]? = some o → o.stand = .sending → o.reply = none →
    hub.coordinator.pending.get (I.strKey o.reqId) = some i

theorem Registered.move (h : hub.Registered I) (hlinked : hub.Linked I)
    (hmove : hub.Move I e hub') : hub'.Registered I := by
  intro i o' ho' hstand hreply
  -- the entry of another call is another entry
  have hother : ∀ {j : Nat} {x : Outgoing}, hub.calls[j]? = some x → i ≠ j →
      hub.calls[i]? = some o' → I.strKey o'.reqId ≠ I.strKey x.reqId := by
    intro j x hx hij ho hkey
    exact hij (hlinked.distinct ho hx (I.strKey_injective hkey))
  cases hmove with
  | called hnew =>
    simp only [Dict.get_set]
    by_cases hlt : i < hub.calls.length
    · rw [List.getElem?_append_left hlt] at ho'
      rw [if_neg]
      · exact h ho' hstand hreply
      · intro hkey
        exact hnew o' (List.mem_of_getElem? ho') (I.strKey_injective hkey)
    · have hlt' := (List.getElem?_eq_some_iff.mp ho').1
      simp only [List.length_append, List.length_singleton] at hlt'
      obtain rfl : i = hub.calls.length := by omega
      rw [List.getElem?_concat_length] at ho'
      rw [← Option.some.inj ho', if_pos rfl]
  | @out j x hx =>
    unfold Hub.out at ho' ⊢
    split at ho'
    · rename_i hfree
      rcases of_set ho' with ⟨_, rfl⟩ | ⟨hij, ho⟩
      · cases hstand
      · rw [if_pos hfree]
        simp only [Dict.get_set, if_neg (hother hx hij ho)]
        exact h ho hstand hreply
    · rename_i hfree
      rcases of_set ho' with ⟨_, rfl⟩ | ⟨_, ho⟩
      · cases hstand
      · rw [if_neg hfree]
        exact h ho hstand hreply
  | pulling =>
    rcases of_set ho' with ⟨_, rfl⟩ | ⟨_, ho⟩
    · cases hstand
    · exact h ho hstand hreply
  | abandoned =>
    rcases of_set ho' with ⟨_, rfl⟩ | ⟨_, ho⟩
    · cases hstand
    · exact h ho hstand hreply
  | finished _ hx =>
    rcases of_set ho' with ⟨_, rfl⟩ | ⟨hij, ho⟩
    · cases hstand
    · simp only [finish, cleanUp_pending, Dict.get_erase, if_neg (hother hx hij ho)]
      exact h ho hstand hreply
  | @received peer _ msg now =>
    rw [calls_receive] at ho'
    obtain ⟨o, ho, rfl⟩ := Option.map_eq_some_iff.mp ho'
    have hsame := o.same_settle (i := i) (handleMessage I now hub.coordinator peer msg).resolved
    have hnone : o.reply = none := by
      rw [Option.eq_none_iff_forall_ne_some]
      intro m hm
      rw [Outgoing.settle_reply hm] at hreply
      cases hreply
    have hold := h ho (hsame.stand ▸ hstand) hnone
    rw [hsame.reqId]
    rcases handled_pending I now hub.coordinator peer msg with
      ⟨heq, _⟩ | ⟨k, f, hreplies, heq, hmem⟩
    · simp only [receive, heq]
      exact hold
    · simp only [receive, heq, Dict.get_erase]
      rw [if_neg]
      · exact hold
      · -- the request that this message answers has its reply now
        intro hk
        have hpending := hreplies.pending
        rw [← hk, hold] at hpending
        obtain rfl := Option.some.inj hpending
        obtain ⟨m, hm⟩ := Outgoing.settle_replied (o := o) hmem
        rw [hm] at hreply
        cases hreply
  | _ => exact h ho' hstand hreply

theorem Reachable.registered (h : Reachable I Anything hub) : hub.Registered I := by
  induction h with
  | start hfresh =>
    intro i o ho
    simp [hfresh.calls] at ho
  | step hreach _ hstep ih => exact ih.move hreach.linked (step_moves hstep)

/-- A free whose `send_to` raises is over and stays pending. -/
theorem Reachable.forsaken (h : Reachable I Anything hub) {i : Nat} {o : Outgoing}
    (hforsaken : hub.Forsaken (.raise i) i o) (hstep : hub.step I (.raise i) = some hub') :
    (∃ o', hub'.calls[i]? = some o' ∧ o'.stand = .over .raised) ∧
      hub'.coordinator.pending.get (I.strKey o.reqId) = if o.reply.isNone then some i else none := by
  obtain ⟨_, ho, hask, hs⟩ := hforsaken
  have heq : hub' = { hub with calls := hub.calls.set i { o with stand := .over .raised } } := by
    obtain ⟨x, hx, habandon⟩ := Option.bind_eq_some_iff.mp hstep
    obtain rfl := Option.some.inj (hx.symm.trans ho)
    simp only [abandon, hs, hask, Option.some.injEq] at habandon
    rw [← habandon]
    simp only [hask]
  subst heq
  refine ⟨⟨_, List.getElem?_set_self (List.getElem?_eq_some_iff.mp ho).1, rfl⟩, ?_⟩
  show hub.coordinator.pending.get _ = _
  cases hreply : o.reply with
  | none => exact h.registered ho hs hreply
  | some m =>
    refine Option.eq_none_iff_forall_ne_some.mpr (fun f hf => ?_)
    obtain ⟨⟨x, hx, hkey⟩, hnone⟩ := h.linked.pending hf
    obtain rfl := h.linked.distinct hx ho (I.strKey_injective hkey)
    rw [hnone o ho] at hreply
    cases hreply

/-- What remote calls leave in the tables. Loads clean up in every run,
and no call stays pending once it is over, but a `free_remote` whose
`send_to` raised, and did not only return False: it leaves its id in
`_pending` unless the reply is already there. Stores and frees clean up
in the runs in which no buffer is opened under their ids and `send_to` of
no free raises; a chunked answer to one of them leaves a collector for
good. -/
theorem calls_clean_up (h : Reachable I Anything hub) :
    (Reachable I (OpensForLoads I) hub → ∀ i, hub.CleansUp I i) ∧
      (∀ (i : Nat) (o : Outgoing), hub.calls[i]? = some o →
        (o.ask = .load → hub.CleansUp I i) ∧
        (∀ r, o.stand = .over r → ¬ (o.ask = .free ∧ r = .raised) →
          hub.coordinator.pending.get (I.strKey o.reqId) = none) ∧
        (o.ask ≠ .load → ∀ peer msg now k, OpensPull I now hub.coordinator msg k i →
          ∀ es hub', hub.run I (.receive peer msg now :: es) = some hub' →
            hub'.coordinator.pullFutures.get k = some i) ∧
        (o.ask = .free → o.stand = .sending → o.reply = none →
          hub.coordinator.pending.get (I.strKey o.reqId) = some i) ∧
        (hub.Forsaken (.raise i) i o → ∀ hub', hub.step I (.raise i) = some hub' →
          (∃ o', hub'.calls[i]? = some o' ∧ o'.stand = .over .raised) ∧
          hub'.coordinator.pending.get (I.strKey o.reqId) = if o.reply.isNone then some i else none)) := by
  refine ⟨?_, ?_⟩
  · intro hok i
    by_cases hi : ∃ o, hub.calls[i]? = some o
    · obtain ⟨o, ho⟩ := hi
      by_cases hask : o.ask = .load
      · exact h.cleared.load_cleansUp ho hask
      · exact hok.bare.cleansUp ho hask
    · exact ⟨fun ho => absurd ⟨_, ho⟩ hi, fun ho => absurd ⟨_, ho⟩ hi⟩
  · intro i o ho
    refine ⟨h.cleared.load_cleansUp ho, fun r => h.cleared.pending ho, ?_, fun _ => h.registered ho,
      fun hforsaken hub' hstep => h.forsaken hforsaken hstep⟩
    intro hask peer msg now k hopens es hub' hrun
    obtain ⟨next, hstep, hrest⟩ := Option.bind_eq_some_iff.mp hrun
    obtain ⟨o', ho', hlater⟩ := (step_moves hstep).later ho
    refine (Reachable.step h trivial hstep).collector_stays es ho' (hlater.ask ▸ hask) ?_ hrest
    simp only [step] at hstep
    split at hstep
    · obtain rfl := Option.some.inj hstep
      obtain ⟨c', rs, _, hhandled⟩ := hopens.handled peer
      simp [receive, hhandled]
    · cases hstep

/-- A store that waits for its reply. -/
def storing : List (Event (Option String ⊕ Int)) :=
  [.call "p" .store "r" "5", .out 0]

theorem calls_clean_up_storing :
    ∃ hub, twoStripes.run plainKeys storing = some hub ∧
      hub.coordinator.pending.get (plainKeys.strKey "r") = some 0 ∧
      ∃ hub' o r, hub.step plainKeys (.expire 0) = some hub' ∧ hub'.calls = [o] ∧
        o.stand = .over r ∧ hub'.coordinator.Clear (plainKeys.strKey "r") := by
  have hrun : ∃ hub₁ hub₂ hub₃, twoStripes.step plainKeys (.call "p" .store "r" "5") = some hub₁ ∧
      hub₁.step plainKeys (.out 0) = some hub₂ ∧ hub₂.step plainKeys (.expire 0) = some hub₃ ∧
      hub₂.coordinator.pending.get (plainKeys.strKey "r") = some 0 ∧
      (∃ o, hub₂.calls = [o] ∧ o.stand = .awaitReply ∧ o.reqId = "r") ∧
      ∃ o r, hub₃.calls = [o] ∧ o.stand = .over r :=
    ⟨_, _, _, rfl, rfl, rfl, rfl, ⟨_, rfl, rfl, rfl⟩, _, _, rfl, rfl⟩
  obtain ⟨hub₁, hub₂, hub₃, hcall, hout, hexpire, hpending, ⟨o, ho, hawait, hid⟩, o', r, ho',
    hover⟩ := hrun
  have hstart : Reachable plainKeys (OpensForLoads plainKeys) twoStripes := .start (fresh_init _ _)
  have hstart' : Reachable plainKeys Anything twoStripes := .start (fresh_init _ _)
  have hfresh : OpensForLoads plainKeys twoStripes (.call "p" .store "r" "5") := fun _ => rfl
  have hok : Reachable plainKeys (OpensForLoads plainKeys) hub₂ :=
    .step (e := .out 0) (.step hstart hfresh hcall) trivial hout
  have hclean := (calls_clean_up (.step (.step hstart' trivial hcall) trivial hout)).1 hok 0
  refine ⟨hub₂, ?_, hpending, hub₃, o', r, hexpire, ho', hover, ?_⟩
  · simp only [storing, run, hcall, hout, Option.bind_some]
  · rw [← hid]
    exact hclean.atEnd (by rw [ho]; rfl) (by simp [InProgress, hawait]) hexpire
      (fun hforsaken => by cases hforsaken.event) (by rw [ho']; rfl) hover

/-- A peer answers a store with the header of a chunked BlockData: the
store is over, and its id has a buffer and a collector. -/
theorem store_leaves_collector :
    ∃ hub, twoStripes.run plainKeys
        [.call "p" .store "r" "5", .out 0, .receive "p" (replyHeader (.str "r") 3 1) 0, .go 0]
          = some hub ∧
      (∃ o r, hub.calls = [o] ∧ o.ask = .store ∧ o.stand = .over r) ∧
      hub.coordinator.pullFutures.get (plainKeys.strKey "r") = some 0 ∧
      (∃ b, hub.coordinator.buffers.get (plainKeys.strKey "r") = some b ∧ b.mode = .pull 0) :=
  ⟨_, rfl, ⟨_, _, rfl, rfl, rfl⟩, rfl, _, rfl, rfl⟩

end Hub

end Memnode.Replication
