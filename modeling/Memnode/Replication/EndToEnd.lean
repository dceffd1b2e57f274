/-
Memnode.Replication.EndToEnd — remote calls between two nodes, from the
call to the bytes and back.

`Circuit` has every layer between two nodes, and `Simulates` shows that a
connection that is up runs `Network`. What is known of the network's calm
runs is then known of the circuit: a remote call that is over has done at
the peer what it was asked to do and returned what came of it. This
module adds what the network cannot say, because there the connection has
no steps of its own: over a transport with room the two never wait for
each other while a call is not over, and no schedule goes on forever.

  §1 a circuit that can do nothing runs a network that can do nothing;
  §2 a load, run step by step until nothing is left to do;
  §3 calls do what they are for (`connection_exact`), nothing waits for
     something that waits for it (`connection_answers`), and nothing goes
     on forever (`connection_terminates`).
-/
import Memnode.Lib.Simulation
import Memnode.Replication.Simulates

set_option linter.unusedSectionVars false

namespace Memnode.Replication

open Lib Blocks Mux Security

variable {K : Type} [DecidableEq K] {params : ChannelParams} (I : Interpreter K)

/-! ## §1 Where nothing is left to do -/

/-- Nothing can be worked on. -/
def Circuit.Quiet (C : Crypto) (c : Circuit K params) : Prop :=
  ∀ e : Circuit.Event K, e.Progress → c.step C I e = none

section Quiet

variable {I} {C : Crypto} {S : Setup params} {c : Circuit K params} {net : Net K} {s : Side}

theorem act_send (x : End params) (inbound : Bytes) (t : Int) (m : Message) :
    x.act C I.packer inbound (.mux (.send t m)) ≠ none := by
  simp only [End.act, End.muxStep, ChannelMux.step]
  split
  · simp
  · split <;> simp

/-- A task that is about to send and does not wait can send. -/
theorem Circuit.Quiet.upcoming (h : c.Quiet I C) {t : Task} (hnot : t ∉ (c.side s).senders) :
    Station.upcoming (c.side s).node t = none := by
  cases hup : Station.upcoming (c.side s).node t with
  | none => rfl
  | some m =>
    have hnone := h (.offer s t) trivial
    simp only [Circuit.step, Circuit.offer, hup, if_neg hnot, Option.map_eq_none_iff] at hnone
    exact absurd hnone (act_send _ _ _ _)

/-- The writers have nothing to do. -/
theorem Circuit.Quiet.writer (h : c.Quiet I C) (hm : Models C I S c net) (s : Side) :
    (c.side s).port.mux.held = 0 ∧ ∀ t, (c.side s).port.pendingOn t = [] := by
  have hport : ∀ a, unforced a = true → ofTransport a = true → c.act C I s a = none := by
    intro a ha ha'
    have hnone := h (.port s a) ha
    simpa only [Circuit.step, ha', if_true, Option.map_eq_none_iff] using hnone
  exact (hm.wired.sound s).quiet (hport (.mux .run) rfl rfl) (hport (.transmit 0 0) rfl rfl)
    (hport .drained rfl rfl)

/-- All slots are free, so nobody waits for one. -/
theorem Circuit.Quiet.senders (h : c.Quiet I C) (hm : Models C I S c net) (hqueue : 0 < S.maxQueued s) :
    (c.side s).senders = [] := by
  by_contra hne
  have hlen : (c.side s).port.mux.slots.waiters.length = (c.side s).senders.length := by
    have hwaits := congrArg List.length (hm.is s).waits
    simpa [Semaphore.waiting] using hwaits
  obtain ⟨w, hw, hg⟩ : ∃ w ∈ (c.side s).port.mux.slots.waiters, w.2 = true := by
    rcases (hm.wired.sound s).serving.handed with hv | hempty | hgranted
    · have hslots := (hm.wired.sound s).serving.balanced.slots
      rw [(h.writer hm s).1, Semaphore.available, hv, Nat.zero_add, Nat.zero_add] at hslots
      exact List.countP_pos_iff.mp (show 0 < (c.side s).port.mux.slots.granted by omega)
    · rw [hempty] at hlen
      exact absurd (List.length_eq_zero_iff.mp hlen.symm) hne
    · exact hgranted
  obtain ⟨i, a, slots, hresume⟩ := Semaphore.exists_resume hw hg
  obtain ⟨t, ht⟩ : ∃ t, (c.side s).senders[i]? = some t := by
    have hi := (Semaphore.resume_waiting hresume).1
    obtain ⟨hlt, _⟩ := List.getElem?_eq_some_iff.mp hi
    rw [Semaphore.waiting, List.length_map, hlen] at hlt
    exact ⟨_, List.getElem?_eq_getElem hlt⟩
  have hnone := h (.resume s i) trivial
  simp [Circuit.step, Circuit.resume, ht, Circuit.act, End.act, End.muxStep, ChannelMux.step, hresume] at hnone

theorem Circuit.Quiet.handler (h : c.Quiet I C) (hm : Models C I S c net) (hqueue : 0 < S.maxQueued s) :
    (c.side s).node.handler = .idle := by
  by_contra hbusy
  have hreader := h.upcoming (s := s) (t := .reader) (by rw [h.senders hm hqueue]; simp)
  have hnone := h (.serve s Shuffles.identity) trivial
  simp only [Circuit.step, Option.map_eq_none_iff, Node.serve] at hnone
  split at hnone
  · rename_i hserve
    refine serve_isSome _ hbusy (fun reqId m rest hsend => ?_) _ _ _ _ hserve
    simp [Station.upcoming, hsend] at hreader
  · cases hnone

/-- The read loops wait for a message, and none is on the way. -/
theorem Circuit.Quiet.reader (correct : C.AeadCorrect) (hskip : 1 ≤ params.maxEpochSkip)
    (h : c.Quiet I C) (hm : Models C I S c net) (hqueue : 0 < S.maxQueued s) :
    (c.side s).port.reader = .waiting ∧ c.wire s.other = [] := by
  have hwaiting : (c.side s).port.reader = .waiting := by
    cases hr : (c.side s).port.reader with
    | waiting => rfl
    | ended => exact absurd hr (hm.wired.sound s).reads
    | handling =>
      have hnone := h (.handled s) trivial
      simp [Circuit.step, h.handler hm hqueue, Circuit.act, End.act, hr] at hnone
  refine ⟨hwaiting, ?_⟩
  by_contra hbytes
  obtain ⟨r, m, hact, -⟩ := (hm.flow_other correct hskip s).crosses.goes_on correct hskip hwaiting hbytes
  have hnone := h (.read s 0) trivial
  simp [Circuit.step, Circuit.read, Circuit.act, hact] at hnone

/-- **A connection that can do nothing has delivered everything**, and
the nodes can do nothing either. -/
theorem Circuit.Quiet.network (correct : C.AeadCorrect) (hskip : 1 ≤ params.maxEpochSkip)
    (h : c.Quiet I C) (hm : Models C I S c net) (hqueue : ∀ s, 0 < S.maxQueued s) : net.Quiet I := by
  have houtbox : ∀ s, (net s).outbox = [] := by
    intro s
    have hflow := hm.flow correct hskip s
    have hwire := (h.reader correct hskip hm (hqueue s.other)).2
    rw [Side.other_other] at hwire
    have hall : (c.side s).port.written.length = (c.side s.other).port.dispatched.length := by
      have hcrosses := hflow.crosses
      rw [hwire] at hcrosses
      exact hcrosses.all_dispatched (hm.wired.sound s.other).reads
    refine eq_nil_of_ofStream (fun t => ?_)
    have hout := hm.owes s t
    rw [hflow.sends.kept (hm.wired.sound s).serving.writes t, (h.writer hm s).2 t, ← hall,
      List.take_length, List.append_nil] at hout
    exact List.self_eq_append_right.mp hout
  have hidle : ∀ s, (net s).handler = .idle := by
    intro s
    rw [(hm.is s).node]
    exact h.handler hm (hqueue s)
  intro e he
  cases e with
  | advance s i =>
    have hnone := h.upcoming (s := s) (t := .call i) (by rw [h.senders hm (hqueue s)]; simp)
    have hgo := h (.go s i) trivial
    simp only [Circuit.step, Circuit.go, hnone, Option.map_eq_none_iff] at hgo
    show ((net s).advance I i).map (Function.update net s) = none
    rw [(hm.is s).node, (advance_loaded I hnone).1, hgo]
    rfl
  | deliver s i now => simp [Net.step, Net.deliver, houtbox s]
  | serve s sh => simp [Net.step, Node.serve, hidle s, Handler.serve]
  | reply s => simp [Net.step, Node.reply, hidle s]
  | call | timeout | own => exact he.elim

theorem Models.calls_mem (h : Models C I S c net) {d : RemoteCall} (hd : d ∈ (c.side s).node.calls) :
    d ∈ (net s).calls := by
  rw [(h.is s).node]
  exact hd

end Quiet

/-! ## §2 A load, step by step -/

namespace Circuit

variable (C : Crypto)

instance decidableUp (c : Circuit K params) : Decidable c.Up :=
  decidable_of_iff ((c.side .left).port.mux.closed = false ∧ (c.side .right).port.mux.closed = false)
    ⟨fun h s => by cases s; exacts [h.1, h.2], fun h => ⟨h .left, h .right⟩⟩

instance decidableUndisturbed (c : Circuit K params) (e : Event K) : Decidable (c.Undisturbed C I e) :=
  match e with
  | .call _ request reqId _ =>
      decidable_of_iff (reqId ≠ "" ∧ ((∀ d ∈ (c.side .left).node.calls, d.reqId ≠ reqId) ∧
          ∀ d ∈ (c.side .right).node.calls, d.reqId ≠ reqId) ∧ request.hashable I = true)
        ⟨fun h => ⟨h.1, fun s => by cases s; exacts [h.2.1.1, h.2.1.2], h.2.2⟩,
          fun h => ⟨h.1, ⟨h.2.1 .left, h.2.1 .right⟩, h.2.2⟩⟩
  | .read s now =>
      inferInstanceAs (Decidable
        ((∀ e ∈ (c.side s).node.coordinator.buffers.entries, e.2.stale now = false) ∧
          ∀ r ∈ c.act C I s .arrive, ∀ m ∈ news (c.side s).port r, m.type = .storeBlock →
            (c.side s).node.coordinator.buffers.size < Config.maxInboundStreams))
  | .timeout _ _ => isFalse (fun h => h)
  | .go _ _ => isTrue trivial
  | .offer _ _ => isTrue trivial
  | .resume _ _ => isTrue trivial
  | .serve _ _ => isTrue trivial
  | .own _ _ (.store r) => inferInstanceAs (Decidable (hashError r.key = none))
  | .own _ _ (.load _) => isTrue trivial
  | .own _ _ (.loadByKey _) => isTrue trivial
  | .own _ _ (.free _) => isTrue trivial
  | .own _ _ (.freeByKey _) => isTrue trivial
  | .port _ _ => isTrue trivial
  | .handled _ => isTrue trivial

/-- These events, one after the other, as long as nothing disturbs them
and the connection stays up. -/
def run (c : Circuit K params) : List (Event K) → Option (Circuit K params)
  | [] => some c
  | e :: rest =>
      if c.Undisturbed C I e then
        (c.step C I e).bind (fun c' => if c'.Up then run c' rest else none)
      else none

theorem steps_of_run {c c' : Circuit K params} {events : List (Event K)}
    (h : c.run I C events = some c') : Relation.ReflTransGen (Steps C I) c c' := by
  induction events generalizing c with
  | nil =>
    cases h
    exact .refl
  | cons e rest ih =>
    simp only [run] at h
    split at h
    · rename_i hcalm
      obtain ⟨mid, hmid, hrest⟩ := Option.bind_eq_some_iff.mp h
      split at hrest
      · rename_i hup
        exact (ih hrest).head ⟨e, hcalm, hmid, hup⟩
      · cases hrest
    · cases h

/-- Nothing is going on at side `s`. -/
def atRest (c : Circuit K params) (s : Side) : Bool :=
  match (c.side s).node.handler, (c.side s).port.reader, (c.side s).port.mux.writer with
  | .idle, .waiting, .waiting =>
      !(c.side s).port.mux.wake && (c.side s).senders.isEmpty && (c.wire s).isEmpty
        && (c.side s).node.calls.all RemoteCall.over
  | _, _, _ => false

theorem upcoming_over {n : Node K} {i : Nat} (h : ∀ d ∈ n.calls, d.over = true) :
    Station.upcoming n (.call i) = none ∧ n.advance I i = none := by
  cases hd : n.calls[i]? with
  | none => simp [Station.upcoming, Node.advance, hd]
  | some d =>
    have hover := h d (List.mem_of_getElem? hd)
    unfold RemoteCall.over at hover
    split at hover
    · rename_i r hphase
      simp [Station.upcoming, Node.advance, hd, hphase]
    · cases hover

theorem quiet_of_atRest {c : Circuit K params} (h : ∀ s, c.atRest s = true) : c.Quiet I C := by
  have hrest : ∀ s, (c.side s).node.handler = .idle ∧ (c.side s).port.reader = .waiting ∧
      (c.side s).port.mux.writer = .waiting ∧ (c.side s).port.mux.wake = false ∧ (c.side s).senders = [] ∧
      c.wire s = [] ∧ ∀ d ∈ (c.side s).node.calls, d.over = true := by
    intro s
    have hs := h s
    unfold atRest at hs
    split at hs
    · simp only [Bool.and_eq_true, Bool.not_eq_true', List.isEmpty_iff, List.all_eq_true] at hs
      simp_all
    · cases hs
  have hread : Frames.readFrame Config.maxFrameSize [] = (.error (.incompleteRead 0 4), []) := rfl
  intro e he
  cases e with
  | go s i =>
    obtain ⟨-, -, -, -, -, -, hover⟩ := hrest s
    simp [step, go, upcoming_over I hover]
  | offer s t =>
    obtain ⟨hidle, -, -, -, -, -, hover⟩ := hrest s
    cases t with
    | reader => simp [step, offer, Station.upcoming, hidle]
    | call i => simp [step, offer, upcoming_over I hover]
  | resume s k => simp [step, resume, hrest s]
  | serve s sh => simp [step, Node.serve, Handler.serve, hrest s]
  | port s a =>
    have hmux : (c.side s).port.mux.step .run = none ∧ (c.side s).port.mux.hand = none := by
      simp [ChannelMux.step, ChannelMux.hand, hrest s]
    cases a with
    | mux e =>
      cases e with
      | run => simp [step, ofTransport, act, End.act, End.muxStep, hmux]
      | _ => cases he
    | transmit t t' => simp [step, ofTransport, act, End.act, End.transmit, hmux]
    | drained => simp [step, ofTransport, act, End.act, End.muxStep, ChannelMux.step, hrest s]
    | _ => cases he
  | read s now =>
    obtain ⟨-, -, -, -, -, hwire, -⟩ := hrest s.other
    simp [step, read, act, End.act, End.arrive, hrest s, hwire, hread]
  | handled s => simp [step, act, End.act, hrest s]
  | call | timeout | own => exact he.elim

end Circuit

/-- The left node asks the right one for a block it does not have, and
both go on until nothing is left to do. -/
def missedLoad : List (Circuit.Event (Option String ⊕ Int)) :=
  [.call .left (.load (some 1) none) "r1" "30.0", .offer .left (.call 0), .port .left (.mux .run),
    .port .left (.transmit 0 0), .port .left .drained, .read .right 0, .serve .right Shuffles.identity,
    .offer .right .reader, .port .right (.mux .run), .port .right (.transmit 0 0), .port .right .drained,
    .handled .right, .read .left 0, .handled .left, .go .left 0]

def smallParams : ChannelParams := ⟨4, by decide, 100, by decide, 0, 1⟩

/-- What the two nodes have agreed on. -/
def smallSetup : Setup smallParams := ⟨fun _ => [1], [], fun _ => 0, fun _ => 2⟩

theorem steps_missedLoad :
    ∃ c : Circuit (Option String ⊕ Int) smallParams, Relation.ReflTransGen (Circuit.Steps .tagging plainKeys)
        (.connect _ (freshPair ⟨2, by decide, 0⟩) smallSetup.key smallSetup.tHash smallSetup.now
          smallSetup.maxQueued) c ∧
      (∀ s, c.atRest s = true) ∧ (c.side .left).node.calls.map RemoteCall.over = [true] := by
  have hrun : ((Circuit.connect smallParams (freshPair ⟨2, by decide, 0⟩) smallSetup.key smallSetup.tHash
      smallSetup.now smallSetup.maxQueued).run plainKeys .tagging missedLoad).map (fun c =>
        (c.atRest .left, c.atRest .right, (c.side .left).node.calls.map RemoteCall.over))
      = some (true, true, [true]) := by
    decide +kernel
  obtain ⟨c, hrun, hrest⟩ := Option.map_eq_some_iff.mp hrun
  simp only [Prod.mk.injEq] at hrest
  exact ⟨c, Circuit.steps_of_run plainKeys .tagging hrun, fun s => by cases s; exacts [hrest.1, hrest.2.1],
    hrest.2.2⟩

/-! ## §3 Remote calls over one connection -/

/-- The nodes of a circuit. -/
def Circuit.nodes (c : Circuit K params) : Net K := fun s => (c.side s).node

section Result

variable {C : Crypto} {S : Setup params}

/-- The circuit models a network that is in a state of a calm run. -/
def Follows (C : Crypto) (S : Setup params) (c : Circuit K params) (net : Net K) : Prop :=
  Models C I S c net ∧ Net.Reachable I (Net.Calm I) net

/-- Every step of a run is a step of the network or one of the connection's own. -/
theorem ranked_steps (correct : C.AeadCorrect) (hskip : 1 ≤ params.maxEpochSkip) :
    Ranked (@Circuit.Steps K _ params C I) (fun net net' => ∃ e, net.Calm I e ∧ net.step I e = some net')
      (Follows I C S) Circuit.rank := by
  rintro c net c' ⟨hm, hreach⟩ ⟨e, hcalm, hstep, hup⟩
  rcases step_models correct hskip hm hcalm hstep hup with
    ⟨e', net', -, hcalm', hnet, hm'⟩ | ⟨hm', hrank⟩
  · exact .inl ⟨net', ⟨e', hcalm', hnet⟩, hm', hreach.step hcalm' hnet⟩
  · exact .inr ⟨⟨hm', hreach⟩, hrank⟩

/-- And what works on the circuit's calls works on the network's. -/
theorem ranked_works (correct : C.AeadCorrect) (hskip : 1 ≤ params.maxEpochSkip) :
    Ranked (@Circuit.Works K _ params C I) (Net.Works I) (Follows I C S) Circuit.rank := by
  rintro c net c' ⟨hm, hreach⟩ ⟨e, hprogress, hcalm, hstep, hup⟩
  rcases step_models correct hskip hm hcalm hstep hup with
    ⟨e', net', hprogress', hcalm', hnet, hm'⟩ | ⟨hm', hrank⟩
  · exact .inl ⟨net', ⟨e', hprogress' hprogress, hcalm', hnet⟩, hm', hreach.step hcalm' hnet⟩
  · exact .inr ⟨⟨hm', hreach⟩, hrank⟩

variable (C S) (correct : C.AeadCorrect) (hskip : 1 ≤ params.maxEpochSkip) (start : Net K)
  (hfresh : ∀ s, (start s).Fresh) (c : Circuit K params)
  (h : Relation.ReflTransGen (Circuit.Steps C I) (.connect params start S.key S.tHash S.now S.maxQueued) c)
include correct hskip hfresh h

theorem exists_follows : ∃ net, Follows I C S c net := by
  obtain ⟨net, -, hruns⟩ := (ranked_steps (S := S) I correct hskip).run h ⟨models_connect hfresh, .start hfresh⟩
  exact ⟨net, hruns⟩

/-- **Remote calls over one connection.** Two nodes right after their
handshake; their calls, handlers, muxes, channels and read loops take
their steps in any order, as long as the connection is up, nothing times
out and the reassembly tables have room. In every state of such a run, a
call that is over is settled, and for one that is not, nothing has been
done at the peer or what settles it. Slots, turns between streams,
packing, sealing, rekeying and the replay window change nothing of this. -/
theorem connection_exact (s : Side) (d : RemoteCall) (hd : d ∈ (c.nodes s).calls) :
    (∀ r, d.phase = .done r → Settled I (c.nodes.served I s.other (I.strKey d.reqId)) r d.request) ∧
      (c.nodes.served I s.other (I.strKey d.reqId) = [] ∨
        ∃ r, Settled I (c.nodes.served I s.other (I.strKey d.reqId)) r d.request) := by
  obtain ⟨net, hm, hreach⟩ := exists_follows I C S correct hskip start hfresh c h
  have hserved : c.nodes.served I s.other (I.strKey d.reqId) = net.served I s.other (I.strKey d.reqId) := by
    rw [Net.served, Net.served, (hm.is s.other).node]
    rfl
  obtain ⟨i, hi⟩ := List.mem_iff_getElem?.mp (hm.calls_mem hd)
  have hstaged := (inv_reachable I hreach).staged hi
  rw [hserved]
  exact ⟨fun r hr => hstaged.settled I hr, hstaged.made I⟩

omit hfresh correct hskip h in
theorem connection_exact_missedLoad :
    ∃ c : Circuit (Option String ⊕ Int) smallParams,
      (c.nodes .left).calls.map RemoteCall.over = [true] ∧
      ∀ d ∈ (c.nodes .left).calls, ∀ r, d.phase = .done r →
        Settled plainKeys (c.nodes.served plainKeys .right (plainKeys.strKey d.reqId)) r d.request := by
  obtain ⟨c, hruns, -, hover⟩ := steps_missedLoad
  exact ⟨c, hover, fun d hd => (connection_exact plainKeys .tagging smallSetup Crypto.tagging_aeadCorrect
    (by decide) _ (fresh_freshPair _) c hruns .left d hd).1⟩

/-- **No deadlock over a transport with room.** Where nothing can be
worked on, every call is over: the bounds of the two muxes alone never
leave a handler, a writer, a read loop or a waiting task stuck. -/
theorem connection_answers (hqueue : ∀ s, 0 < S.maxQueued s) (hquiet : c.Quiet I C) (s : Side)
    (d : RemoteCall) (hd : d ∈ (c.nodes s).calls) : ∃ r, d.phase = .done r := by
  obtain ⟨net, hm, hreach⟩ := exists_follows I C S correct hskip start hfresh c h
  obtain ⟨i, hi⟩ := List.mem_iff_getElem?.mp (hm.calls_mem hd)
  exact (inv_reachable I hreach).over I (hquiet.network correct hskip hm hqueue) hi

omit hfresh correct hskip h in
theorem connection_answers_missedLoad :
    ∃ c : Circuit (Option String ⊕ Int) smallParams,
      c.Quiet plainKeys .tagging ∧ (c.nodes .left).calls.length = 1 ∧
        ∀ d ∈ (c.nodes .left).calls, ∃ r, d.phase = .done r := by
  obtain ⟨c, hruns, hrest, hover⟩ := steps_missedLoad
  have hquiet := Circuit.quiet_of_atRest plainKeys .tagging hrest
  have hone : (c.nodes .left).calls.length = 1 := by simpa [Circuit.nodes] using congrArg List.length hover
  exact ⟨c, hquiet, hone, connection_answers plainKeys .tagging smallSetup Crypto.tagging_aeadCorrect
    (by decide) _ (fresh_freshPair _) c hruns (fun _ => Nat.two_pos) hquiet .left⟩

/-- **No livelock.** No schedule works forever on what was asked of the nodes. -/
theorem connection_terminates : Acc (fun y x => Circuit.Works C I x y) c := by
  obtain ⟨net, hruns⟩ := exists_follows I C S correct hskip start hfresh c h
  exact (ranked_works (S := S) I correct hskip).acc ((inv_reachable I hruns.2).terminates I) hruns

omit hfresh correct hskip h in
theorem connection_terminates_missedLoad :
    ∃ c : Circuit (Option String ⊕ Int) smallParams,
      (c.nodes .left).calls.length = 1 ∧ Acc (fun y x => Circuit.Works .tagging plainKeys x y) c := by
  obtain ⟨c, hruns, -, hover⟩ := steps_missedLoad
  have hone : (c.nodes .left).calls.length = 1 := by simpa [Circuit.nodes] using congrArg List.length hover
  exact ⟨c, hone, connection_terminates plainKeys .tagging smallSetup Crypto.tagging_aeadCorrect (by decide) _
    (fresh_freshPair _) c hruns⟩

end Result

end Memnode.Replication
