/-
Memnode.Replication.Simulates — a circuit runs the network.

`Models` relates a circuit to the network it runs. The two have the same
nodes, and on every stream the messages of the abstract outbox are those
queued at the mux and not yet dispatched by the other side; where they
are in between, the network does not see. Across streams the order may
differ, which the network allows.

`step_models` says that a step of a circuit whose connection stays up is
a step of the network, or is one of the connection's own: a writer's
turn, a frame handed to the transport, a task that joins the waiters, a
read loop that goes back to reading. Of those there are only finitely
many in a row (`Circuit.rank`).

  §1 `Models`;
  §2 the steps.
-/
import Memnode.Replication.Circuit

set_option linter.unusedSectionVars false

namespace Memnode.Replication

open Lib Blocks Mux Security

/-! ## §1 A circuit and the network it runs -/

section Streams

/-- The first message of a stream, and what is left without it. -/
theorem first_ofStream {t : Int} {m : Message} {rest : List Message} {l : List (Int × Message)}
    (h : ofStream t l = m :: rest) :
    ∃ i : Nat, l[i]? = some (t, m) ∧ (l.take i).any (fun y => y.1 = t) = false ∧
      ∀ u, ofStream u l = ofStream u [(t, m)] ++ ofStream u (l.eraseIdx i) := by
  induction l with
  | nil => cases h
  | cons x l ih =>
    obtain ⟨t', m'⟩ := x
    have hcons : ∀ u l', ofStream u ((t', m') :: l') = ofStream u [(t', m')] ++ ofStream u l' :=
      fun u => ofStream_append u [(t', m')]
    by_cases ht : t' = t
    · subst ht
      rw [hcons] at h
      have hm : m' = m := by
        simp only [ofStream, onStream, List.flatMap_cons, List.flatMap_nil, if_true] at h
        exact (List.cons.inj h).1
      subst hm
      exact ⟨0, rfl, rfl, fun u => hcons u l⟩
    · have hnone : ofStream t [(t', m')] = [] := by simp [ofStream, onStream, ht]
      rw [hcons, hnone, List.nil_append] at h
      obtain ⟨i, hi, hfirst, hrest⟩ := ih h
      refine ⟨i + 1, hi, ?_, fun u => ?_⟩
      · simp only [List.take_succ_cons, List.any_cons, ht, decide_false, Bool.false_or]
        exact hfirst
      · -- a stream has at most one of the two messages
        rw [hcons u l, hrest, List.eraseIdx_cons_succ, hcons u (l.eraseIdx i), ← List.append_assoc,
          ← List.append_assoc]
        congr 1
        by_cases hu : t' = u
        · have hne : ¬ t = u := fun h => ht (hu.trans h.symm)
          simp [ofStream, onStream, hu, hne]
        · simp [ofStream, onStream, hu]

theorem eq_nil_of_ofStream {l : List (Int × Message)} (h : ∀ t, ofStream t l = []) : l = [] := by
  cases l with
  | nil => rfl
  | cons x l =>
    obtain ⟨t, m⟩ := x
    have hmem : m ∈ ofStream t ((t, m) :: l) := mem_ofStream.mpr List.mem_cons_self
    rw [h t] at hmem
    cases hmem

end Streams

section Models

variable {K : Type} [DecidableEq K] {params : ChannelParams}

/-- A terminal and the node of the network that it is. -/
structure Terminal.Is (P : Packer) (x : Terminal K params) (n : Node K) : Prop where
  node : n = x.node.loaded n.outbox
  closed : x.node.closed = false
  idle : x.port.reader = .waiting → x.node.handler = .idle
  waits : x.port.mux.slots.waiting.map some = x.senders.map (Station.upcoming x.node)
  once : x.senders.Nodup
  written : ∀ sm ∈ x.port.written, sm.2.transmit P = some sm.2

/-- On every stream, what `x` has queued and `y` has not dispatched is the outbox. -/
def Terminal.Owes (x y : Terminal K params) (outbox : List (Int × Message)) : Prop :=
  ∀ t, ofStream t x.port.queued
    = ofStream t (x.port.written.take y.port.dispatched.length) ++ ofStream t outbox

/-- The circuit runs the network. -/
structure Models (C : Crypto) (I : Interpreter K) (S : Setup params) (c : Circuit K params) (net : Net K) :
    Prop where
  wired : Wired C I S c
  is : ∀ s, (c.side s).Is I.packer (net s)
  owes : ∀ s, (c.side s).Owes (c.side s.other) (net s).outbox

variable {C : Crypto} {I : Interpreter K} {S : Setup params} {c : Circuit K params} {net : Net K} {s : Side}
  {n : Node K} {senders : List Task} {r : Acted params} {a : Mux.Act}

theorem models_connect {net : Net K} (h : ∀ s, (net s).Fresh) :
    Models C I S (.connect params net S.key S.tHash S.now S.maxQueued) net where
  wired := wired_connect net
  is := fun s => {
    node := rfl
    closed := (h s).closed
    idle := fun _ => (h s).handler
    waits := rfl
    once := List.nodup_nil
    written := fun sm hsm => by cases hsm }
  owes := fun s t => by
    have hempty : (net s).outbox = [] := (h s).outbox
    rw [hempty]
    rfl

/-- The way from side `s` to the other. -/
theorem Models.flow (correct : C.AeadCorrect) (hskip : 1 ≤ params.maxEpochSkip)
    (h : Models C I S c net) (s : Side) :
    Flow C I.packer S.tHash (S.key s) (c.side s).port (c.wire s) (c.side s.other).port :=
  (h.wired.reached s).flow correct hskip

/-- The way from the other side to `s`. -/
theorem Models.flow_other (correct : C.AeadCorrect) (hskip : 1 ≤ params.maxEpochSkip)
    (h : Models C I S c net) (s : Side) :
    Flow C I.packer S.tHash (S.key s.other) (c.side s.other).port (c.wire s.other) (c.side s).port := by
  have hflow := h.flow correct hskip s.other
  rwa [Side.other_other] at hflow

theorem Models.owes_other (h : Models C I S c net) (s : Side) :
    (c.side s.other).Owes (c.side s) (net s.other).outbox := by
  have howes := h.owes s.other
  rwa [Side.other_other] at howes

/-- One side has changed. -/
theorem Models.put (hw : Wired C I S (c.put s n senders r))
    (his : (⟨n, r.after, senders⟩ : Terminal K params).Is I.packer (net s))
    (hother : (c.side s.other).Is I.packer (net s.other))
    (howes : (⟨n, r.after, senders⟩ : Terminal K params).Owes (c.side s.other) (net s).outbox)
    (howes' : (c.side s.other).Owes ⟨n, r.after, senders⟩ (net s.other).outbox) :
    Models C I S (c.put s n senders r) net := by
  refine ⟨hw, fun t => ?_, fun t => ?_⟩ <;> rcases Side.eq_or_other s t with rfl | rfl
  · rwa [Circuit.put_self]
  · rwa [Circuit.put_other]
  · rwa [Circuit.put_self, Circuit.put_other]
  · rwa [Circuit.put_other, Side.other_other, Circuit.put_self]

/-- A step of the node of one side. -/
theorem Models.setNode (h : Models C I S c net) (hclosed : n.closed = false)
    (hidle : (c.side s).port.reader = .waiting → n.handler = .idle)
    (hwaits : ∀ t ∈ (c.side s).senders, Station.upcoming n t = Station.upcoming (c.side s).node t) :
    Models C I S (c.setNode s n) (Function.update net s (n.loaded (net s).outbox)) := by
  have hw := h.wired.setNode s n
  rw [Circuit.setNode_eq_put] at hw ⊢
  refine .put hw ?_ ?_ ?_ ?_
  · rw [Function.update_self]
    exact { h.is s with
      node := rfl
      closed := hclosed
      idle := hidle
      waits := (h.is s).waits.trans (List.map_congr_left (fun u hu => (hwaits u hu).symm)) }
  · rw [Function.update_of_ne (Side.other_ne s)]
    exact h.is s.other
  · rw [Function.update_self]
    exact h.owes s
  · rw [Function.update_of_ne (Side.other_ne s)]
    exact h.owes_other s

end Models

/-! ## §2 The steps -/

section Steps

variable {K : Type} [DecidableEq K] {params : ChannelParams} {I : Interpreter K}

/-- What the connection has still to do on its own. -/
def Terminal.rank (x : Terminal K params) : Nat :=
  lag x.port + (if x.port.reader = .handling then 1 else 0) + (x.node.calls.length + 1 - x.senders.length)

def Circuit.rank (c : Circuit K params) : Nat := (c.side .left).rank + (c.side .right).rank

variable {C : Crypto} {S : Setup params} {c : Circuit K params} {net : Net K} {s : Side} {n : Node K}
  {senders : List Task} {r : Acted params} {a : Mux.Act} {t : Task} {m : Int × Message}

/-- A step of one side that brings its connection nearer to the end. -/
theorem Circuit.rank_put
    (h : (⟨n, r.after, senders⟩ : Terminal K params).rank < (c.side s).rank) :
    (c.put s n senders r).rank < c.rank := by
  have hself : ((c.put s n senders r).side s).rank < (c.side s).rank := by
    rw [put_self]
    exact h
  have hother : ((c.put s n senders r).side s.other).rank = (c.side s.other).rank := by rw [put_other]
  unfold Circuit.rank
  cases s with
  | left =>
    simp only [Side.other] at hother
    omega
  | right =>
    simp only [Side.other] at hother
    omega

/-- The writer or the transport takes a step. -/
theorem Models.transport (correct : C.AeadCorrect) (hskip : 1 ≤ params.maxEpochSkip)
    (h : Models C I S c net) (hact : c.act C I s a = some r) (ha : ofTransport a = true)
    (hopen : r.after.mux.closed = false) :
    Models C I S (c.put s (c.side s).node (c.side s).senders r) net ∧
      (c.put s (c.side s).node (c.side s).senders r).rank < c.rank := by
  have hc := (h.wired.sound s).ferried correct (End.act_cases hact) ha hopen
  obtain ⟨more, hwritten, hmore⟩ := hc.written
  have hfirst := (h.flow correct hskip s).crosses.first.length_le
  rw [List.length_map] at hfirst
  refine ⟨.put (h.wired.put hact _ _ hopen) { h.is s with
    idle := by rw [hc.reader]; exact (h.is s).idle
    waits := by rw [hc.waiting]; exact (h.is s).waits
    written := fun x hx => ?_ } (h.is s.other) (fun u => ?_) (fun u => ?_), ?_⟩
  · rw [hwritten] at hx
    rcases List.mem_append.mp hx with hx | hx
    · exact (h.is s).written x hx
    · obtain ⟨_, raw, hraw, hsize⟩ := hmore x hx
      rw [Message.transmit, hraw]
      dsimp only
      rw [if_neg (Nat.not_lt.mpr hsize)]
      exact Message.decode_encode hraw
  · rw [hc.queued, hwritten, List.take_append_of_le_length hfirst]
    exact h.owes s u
  · rw [hc.dispatched]
    exact h.owes_other s u
  · refine Circuit.rank_put ?_
    have hlag := hc.lag
    simp only [Terminal.rank, hc.reader]
    omega

/-- The message of a task goes into the queue of its stream. -/
theorem Models.sends (h : Models C I S c net) {e : Mux.Event Int Message}
    {y : Stepped Int Message} (hact : c.act C I s (.mux e) = some r)
    (hr : r.after = { (c.side s).port with
      mux := y.mux
      queued := (c.side s).port.queued ++ y.queued.toList })
    (hq : y.queued = some m) (hopen : y.mux.closed = false)
    (hup : Station.upcoming (c.side s).node t = some m)
    (hwaits : y.mux.slots.waiting.map some = senders.map (Station.upcoming (c.side s).node))
    (hnot : t ∉ senders) (honce : senders.Nodup) :
    ∃ net', net.Calm I (t.event s) ∧ net.step I (t.event s) = some net' ∧
      Models C I S (c.put s (Station.passed I (c.side s).node true t) senders r) net' := by
  have hstep := step_task I (h.is s).node (h.is s).closed hup
  have hcalm : net.Calm I (t.event s) := by cases t <;> exact ⟨trivial, trivial⟩
  obtain ⟨after, out, unread⟩ := r
  obtain rfl : after = _ := hr
  refine ⟨_, hcalm, hstep, .put (h.wired.put hact _ _ hopen) ?_ ?_ ?_ ?_⟩
  · rw [Function.update_self]
    refine { h.is s with
      node := rfl
      closed := passed_closed I _ true t
      idle := fun hw => ?_
      waits := hwaits.trans (List.map_congr_left (fun t' ht' => (upcoming_passed I hup ?_).symm))
      once := honce }
    · have hidle := (h.is s).idle hw
      cases t with
      | reader =>
        obtain ⟨reqId, rest, hhandler⟩ := upcoming_handler hup
        rw [hidle] at hhandler
        cases hhandler
      | call i => rw [Station.passed_call, hidle]
    · rintro rfl
      exact hnot ht'
  · rw [Function.update_of_ne (Side.other_ne s)]
    exact h.is s.other
  · intro u
    rw [Function.update_self, hq]
    show ofStream u ((c.side s).port.queued ++ [m]) = _ ++ ofStream u ((net s).outbox ++ [m])
    rw [ofStream_append, ofStream_append, h.owes s u, List.append_assoc]
  · rw [Function.update_of_ne (Side.other_ne s)]
    exact h.owes_other s

/-- A task that waits is about to send what its waiter holds. -/
theorem Models.waiting (h : Models C I S c net) {k : Nat} (ht : (c.side s).senders[k]? = some t)
    {x : Int × Message} (hx : (c.side s).port.mux.slots.waiting[k]? = some x) :
    Station.upcoming (c.side s).node t = some x := by
  have hsame := congrArg (fun l => l[k]?) (h.is s).waits
  simp only [List.getElem?_map, ht, hx, Option.map_some] at hsame
  exact (Option.some.inj hsame).symm

/-- Everyone who waits is about to send. -/
theorem Models.waits_upcoming (h : Models C I S c net) (ht : t ∈ (c.side s).senders) :
    Station.upcoming (c.side s).node t ≠ none := by
  have hmem : Station.upcoming (c.side s).node t ∈
      (c.side s).senders.map (Station.upcoming (c.side s).node) := List.mem_map_of_mem ht
  rw [← (h.is s).waits] at hmem
  obtain ⟨x, _, hx⟩ := List.mem_map.mp hmem
  rw [← hx]
  exact Option.some_ne_none x

/-- There are no more tasks that wait than tasks. -/
theorem Models.senders_length (h : Models C I S c net) (hup : Station.upcoming (c.side s).node t = some m)
    (hnot : t ∉ (c.side s).senders) :
    (c.side s).senders.length < (c.side s).node.calls.length + 1 := by
  have htask : ∀ t', Station.upcoming (c.side s).node t' ≠ none →
      t' ∈ Task.reader :: (List.range (c.side s).node.calls.length).map Task.call := by
    intro t' ht'
    cases t' with
    | reader => exact List.mem_cons_self
    | call i =>
      obtain ⟨x, hx⟩ := Option.ne_none_iff_exists'.mp ht'
      obtain ⟨d, _, _, hd, _⟩ := upcoming_call hx
      have hlt := (List.getElem?_eq_some_iff.mp hd).1
      exact List.mem_cons_of_mem _ (List.mem_map_of_mem (List.mem_range.mpr hlt))
  have hsub : t :: (c.side s).senders ⊆
      Task.reader :: (List.range (c.side s).node.calls.length).map Task.call := by
    intro t' ht'
    rcases List.mem_cons.mp ht' with rfl | ht'
    · exact htask t' (by rw [hup]; exact Option.some_ne_none m)
    · exact htask t' (h.waits_upcoming ht')
  have hlen := (List.subperm_of_subset (List.nodup_cons.mpr ⟨hnot, (h.is s).once⟩) hsub).length_le
  simp only [List.length_cons, List.length_map, List.length_range] at hlen
  omega

/-- What a step of the circuit is for the network. -/
def Circuit.Simulated (C : Crypto) (I : Interpreter K) (S : Setup params) (c c' : Circuit K params)
    (net : Net K) (progress : Prop) : Prop :=
  (∃ e net', (progress → e.Progress) ∧ net.Calm I e ∧ net.step I e = some net' ∧ Models C I S c' net') ∨
    (Models C I S c' net ∧ c'.rank < c.rank)

theorem Task.progress (s : Side) (t : Task) : (t.event s : Event K).Progress := by
  cases t <;> exact trivial

theorem Models.offer (h : Models C I S c net) {c' : Circuit K params}
    (hstep : c.offer C I s t = some c') (hopen : c'.Up) : c.Simulated C I S c' net True := by
  unfold Circuit.offer at hstep
  dsimp only at hstep
  split at hstep
  · cases hstep
  rename_i stream m hup
  split at hstep
  · cases hstep
  rename_i hnot
  obtain ⟨r, hact, rfl⟩ := Option.map_eq_some_iff.mp hstep
  rw [if_neg (by simp [h.wired.up s])] at hopen ⊢
  have hlen := h.senders_length hup hnot
  obtain ⟨y, hs, hr⟩ := muxes_of_does (End.act_cases hact) (by simp)
  cases ChannelMux.step_cases hs with
  | refuses _ _ hc => exact absurd ((h.wired.up s).symm.trans hc) Bool.false_ne_true
  | queues _ _ slots hc ha =>
    rw [ha, if_pos rfl]
    obtain ⟨net', hcalm, hnet, hmodels⟩ := h.sends hact hr rfl hc hup
      (by rw [← (h.is s).waits]; exact congrArg _ (Semaphore.acquire_true ha).1) hnot (h.is s).once
    exact .inl ⟨_, net', fun _ => Task.progress s t, hcalm, hnet, hmodels⟩
  | waits _ _ slots hc ha =>
    rw [ha, if_neg Bool.false_ne_true]
    obtain ⟨after, out, unread⟩ := r
    obtain rfl : after = { (c.side s).port with mux := { (c.side s).port.mux with slots := slots } } :=
      hr.trans (by simp [ChannelMux.still])
    refine .inr ⟨.put (h.wired.put hact _ _ hc) { h.is s with waits := ?_, once := ?_ } (h.is s.other)
      (h.owes s) (h.owes_other s), Circuit.rank_put ?_⟩
    · show slots.waiting.map some = _
      rw [(Semaphore.acquire_false ha).1, List.map_append, List.map_append, (h.is s).waits,
        List.map_singleton, List.map_singleton, hup]
    · refine List.nodup_append.mpr ⟨(h.is s).once, List.nodup_singleton t, fun a ha' b hb heq => ?_⟩
      rw [List.mem_singleton.mp hb] at heq
      exact hnot (heq ▸ ha')
    · show lag (c.side s).port + (if (c.side s).port.reader = .handling then 1 else 0)
        + ((c.side s).node.calls.length + 1 - ((c.side s).senders ++ [t]).length) < (c.side s).rank
      rw [List.length_append, List.length_singleton, Terminal.rank]
      omega

theorem Models.resume (h : Models C I S c net) {k : Nat} {c' : Circuit K params}
    (hstep : c.resume C I s k = some c') (hopen : c'.Up) : c.Simulated C I S c' net True := by
  unfold Circuit.resume at hstep
  dsimp only at hstep
  split at hstep
  · cases hstep
  rename_i t ht
  obtain ⟨r, hact, rfl⟩ := Option.map_eq_some_iff.mp hstep
  have hclosed := hopen s
  rw [Circuit.put_self] at hclosed
  obtain ⟨y, hs, hr⟩ := muxes_of_does (End.act_cases hact) (by simp)
  cases ChannelMux.step_cases hs with
  | resumes _ stream m slots hslots =>
    obtain ⟨hx, hrest⟩ := Semaphore.resume_waiting hslots
    have hup := h.waiting ht hx
    have hwaits : slots.waiting.map some
        = ((c.side s).senders.eraseIdx k).map (Station.upcoming (c.side s).node) := by
      rw [hrest, ← List.eraseIdx_map, ← List.eraseIdx_map, (h.is s).waits]
    have hnot : t ∉ (c.side s).senders.eraseIdx k := by
      rw [List.mem_eraseIdx_iff_getElem?]
      rintro ⟨j, hj, hjt⟩
      have hlt := (List.getElem?_eq_some_iff.mp hjt).1
      exact hj ((List.getElem?_inj hlt (h.is s).once).mp (hjt.trans ht.symm))
    rw [hr] at hclosed
    obtain ⟨net', hcalm, hnet, hmodels⟩ := h.sends hact hr rfl hclosed hup hwaits hnot
      ((h.is s).once.sublist (List.eraseIdx_sublist _ k))
    exact .inl ⟨_, net', fun _ => Task.progress s t, hcalm, hnet, hmodels⟩

/-- A message comes in: it is the first of its stream that the other
side has queued and this side has not dispatched. -/
theorem Models.arrival (correct : C.AeadCorrect) (hskip : 1 ≤ params.maxEpochSkip)
    (h : Models C I S c net) (hact : c.act C I s .arrive = some r) (hopen : r.after.mux.closed = false) :
    ∃ (t : Int) (m : Message) (i : Nat), (c.side s).port.reader = .waiting ∧
      Circuit.news (c.side s).port r = [m] ∧ r.after.reader = .handling ∧
      r.after.mux = (c.side s).port.mux ∧ r.after.queued = (c.side s).port.queued ∧
      r.after.written = (c.side s).port.written ∧
      r.after.dispatched.length = (c.side s).port.dispatched.length + 1 ∧
      m.transmit I.packer = some m ∧ (net s.other).outbox[i]? = some (t, m) ∧
      ((net s.other).outbox.take i).any (fun y => y.1 = t) = false ∧
      ∀ u, ofStream u (c.side s.other).port.queued
        = ofStream u ((c.side s.other).port.written.take ((c.side s).port.dispatched.length + 1))
          ++ ofStream u ((net s.other).outbox.eraseIdx i) := by
  have hflow := h.flow_other correct hskip s
  cases End.act_cases hact with
  | drops frame rest d hw hread hturn =>
    obtain ⟨d', p, m, hturn', -, -⟩ := hflow.crosses.arrives correct hskip hw hread
    rw [hturn] at hturn'
    cases hturn'
  | stops _ d rest y hd hs =>
    cases ChannelMux.step_cases hs with
    | closes => cases hopen
    | closesAgain hc => exact absurd (hopen.symm.trans hc) Bool.false_ne_true
  | fails _ d flushed y hd hs ha => rcases ha with ha | ⟨_, _, ha, _⟩ <;> cases ha
  | hears frame rest plaintext d m hw hread hturn hdec =>
    obtain ⟨d', p, m', hturn', hdec', hnext⟩ := hflow.crosses.arrives correct hskip hw hread
    rw [hturn] at hturn'
    cases hturn'
    rw [hdec] at hdec'
    cases hdec'
    -- the message after those that were dispatched
    have hfirst : (c.side s).port.dispatched ++ [m] <+: (c.side s.other).port.written.map Prod.snd :=
      hnext.first
    obtain ⟨t, ht⟩ : ∃ t, (c.side s.other).port.written[(c.side s).port.dispatched.length]? = some (t, m) := by
      obtain ⟨rest', hrest⟩ := hfirst
      have hget := congrArg (fun l => l[(c.side s).port.dispatched.length]?) hrest
      simp only [List.append_assoc, List.getElem?_append_right (Nat.le_refl _), Nat.sub_self,
        List.singleton_append, List.getElem?_cons_zero, List.getElem?_map] at hget
      obtain ⟨⟨t, m'⟩, hx, rfl⟩ := Option.map_eq_some_iff.mp hget.symm
      exact ⟨t, hx⟩
    have htake : (c.side s.other).port.written.take ((c.side s).port.dispatched.length + 1)
        = (c.side s.other).port.written.take (c.side s).port.dispatched.length ++ [(t, m)] := by
      rw [List.take_add_one, ht]
      rfl
    have hout := h.owes_other s
    -- it is the first of its stream in the outbox
    obtain ⟨rest', hrest⟩ : ∃ rest', ofStream t (net s.other).outbox = m :: rest' := by
      have hpre := (ofStream_mono (List.take_prefix ((c.side s).port.dispatched.length + 1) _) t).trans
        (hflow.sends.first t)
      rw [htake, ofStream_append, hout t, List.prefix_append_right_inj] at hpre
      obtain ⟨rest', hrest⟩ := hpre
      refine ⟨rest', hrest.symm.trans ?_⟩
      simp [ofStream, onStream]
    obtain ⟨i, hi, hbefore, herase⟩ := first_ofStream hrest
    refine ⟨t, m, i, hw, by simp [Circuit.news], rfl, rfl, rfl, rfl, by simp,
      (h.is s.other).written _ (List.mem_of_getElem? ht), hi, hbefore, fun u => ?_⟩
    rw [htake, hout u, herase u, ofStream_append, List.append_assoc]

theorem Models.read (correct : C.AeadCorrect) (hskip : 1 ≤ params.maxEpochSkip) (h : Models C I S c net)
    {now : Rat} {c' : Circuit K params} (hcalm : c.Undisturbed C I (.read s now))
    (hstep : c.read C I s now = some c') (hup : c'.Up) : c.Simulated C I S c' net True := by
  obtain ⟨r, hact, rfl⟩ := Option.map_eq_some_iff.mp hstep
  have hopen := hup s
  rw [Circuit.put_self] at hopen
  obtain ⟨t, m, i, hw, hnews, hreader, hmux, hqueued, hwritten, hlength, htransmit, hi, hbefore, hout⟩ :=
    h.arrival correct hskip hact hopen
  have hidle := (h.is s).idle hw
  have hs : net s = (c.side s).node.loaded (net s).outbox := (h.is s).node
  have ho : net s.other = (c.side s.other).node.loaded (net s.other).outbox := (h.is s.other).node
  have hpubkey : (net s.other).pubkey = (c.side s.other).node.pubkey := by
    rw [ho]
    rfl
  have hdeliver : net.step I (.deliver s.other i now) = some (delivered I net s.other i now m) := by
    have hclosed : (net s.other).closed = false := by
      rw [ho]
      exact (h.is s.other).closed
    have hhandler : (net s.other.other).handler = .idle := by
      rw [Side.other_other, hs]
      exact hidle
    show net.deliver I s.other i now = _
    unfold Net.deliver
    rw [hi]
    dsimp only
    rw [if_neg (by simp [hclosed, hbefore]), htransmit]
    dsimp only
    rw [hhandler]
    rfl
  refine .inl ⟨.deliver s.other i now, _, fun _ => trivial, ⟨⟨?_, ?_⟩, ?_⟩, hdeliver, ?_⟩
  · rw [Side.other_other, hs]
    exact hcalm.1
  · intro x hx htype
    rw [hi] at hx
    cases hx
    rw [Side.other_other, hs]
    exact hcalm.2 r hact m (by rw [hnews]; exact List.mem_singleton_self m) htype
  · intro x hx
    rw [hi] at hx
    cases hx
    rw [htransmit]
    exact Option.some_ne_none m
  · have hnet : delivered I net s.other i now m s
        = ((c.side s).node.receive I now (c.side s.other).node.pubkey m).loaded (net s).outbox := by
      have hother : delivered I net s.other i now m s.other.other = _ := delivered_other I s.other i now m
      rw [Side.other_other, hpubkey] at hother
      rw [hother, hs]
      rfl
    have hnet' : delivered I net s.other i now m s.other
        = { net s.other with outbox := (net s.other).outbox.eraseIdx i } := delivered_self I s.other i now m
    rw [hnews]
    refine .put (h.wired.put hact _ _ hopen) ?_ ?_ ?_ ?_
    · rw [hnet]
      refine { h.is s with
        node := rfl
        idle := fun hwait => by rw [hreader] at hwait; cases hwait
        waits := ?_
        written := by rw [hwritten]; exact (h.is s).written }
      rw [hmux]
      refine (h.is s).waits.trans (List.map_congr_left (fun t' ht' => ?_))
      cases t' with
      | call j => exact (upcoming_receive I now _ m j).symm
      | reader =>
        have hnone : Station.upcoming (c.side s).node .reader = none := by simp [Station.upcoming, hidle]
        exact absurd hnone (h.waits_upcoming ht')
    · rw [hnet']
      exact { h.is s.other with node := by rw [ho]; rfl }
    · intro u
      rw [hqueued, hwritten, hnet]
      exact h.owes s u
    · intro u
      rw [hlength, hnet']
      exact hout u

theorem Models.handled (h : Models C I S c net) (hact : c.act C I s .handled = some r)
    (hidle : (c.side s).node.handler = .idle) :
    Models C I S (c.put s (c.side s).node (c.side s).senders r) net ∧
      (c.put s (c.side s).node (c.side s).senders r).rank < c.rank := by
  cases End.act_cases hact with
  | fails _ d flushed y hd hs ha => rcases ha with ha | ⟨_, _, ha, _⟩ <;> cases ha
  | stops _ d rest y hd hs ha => rcases ha with ha | ha <;> cases ha
  | handles hw =>
    refine ⟨.put (h.wired.put hact _ _ (h.wired.up s)) { h.is s with idle := fun _ => hidle } (h.is s.other)
      (h.owes s) (h.owes_other s), Circuit.rank_put ?_⟩
    have hlag : lag ({ (c.side s).port with reader := .waiting } : End params) = lag (c.side s).port := rfl
    simp [Terminal.rank, hlag, hw]

/-- **A circuit does what the network does.** A step that nothing
disturbs, and after which the connection is up, is a step of the network,
or changes nothing there and the connection has less to do. -/
theorem step_models (correct : C.AeadCorrect) (hskip : 1 ≤ params.maxEpochSkip) (h : Models C I S c net)
    {e : Circuit.Event K} {c' : Circuit K params} (hcalm : c.Undisturbed C I e)
    (hstep : c.step C I e = some c') (hup : c'.Up) : c.Simulated C I S c' net e.Progress := by
  -- the node of side `s` takes a step that the network takes as well
  have hnode : ∀ {s : Side} {n : Node K} (e' : Event K), c' = c.setNode s n → (e.Progress → e'.Progress) →
      net.Calm I e' → net.step I e' = some (Function.update net s (n.loaded (net s).outbox)) →
      n.closed = false → ((c.side s).port.reader = .waiting → n.handler = .idle) →
      (∀ t ∈ (c.side s).senders, Station.upcoming n t = Station.upcoming (c.side s).node t) →
      c.Simulated C I S c' net e.Progress := by
    rintro s n e' rfl hprogress hcalm' hnet hclosed hidle hwaits
    exact .inl ⟨e', _, hprogress, hcalm', hnet, h.setNode hclosed hidle hwaits⟩
  cases e with
  | offer s t => exact h.offer hstep hup
  | resume s k => exact h.resume hstep hup
  | read s now => exact h.read correct hskip hcalm hstep hup
  | port s a =>
    simp only [Circuit.step] at hstep
    split at hstep
    · rename_i ha
      obtain ⟨r, hact, rfl⟩ := Option.map_eq_some_iff.mp hstep
      have hopen := hup s
      rw [Circuit.put_self] at hopen
      exact .inr (h.transport correct hskip hact ha hopen)
    · cases hstep
  | handled s =>
    simp only [Circuit.step] at hstep
    split at hstep
    · rename_i hidle
      obtain ⟨r, hact, rfl⟩ := Option.map_eq_some_iff.mp hstep
      exact .inr (h.handled hact hidle)
    · cases hstep
  | go s i =>
    simp only [Circuit.step, Circuit.go] at hstep
    split at hstep
    · cases hstep
    rename_i hnone
    obtain ⟨n, hn, rfl⟩ := Option.map_eq_some_iff.mp hstep
    obtain ⟨hloaded, hframe⟩ := advance_loaded I hnone
    have hadvance : net.step I (.advance s i) = some (Function.update net s (n.loaded (net s).outbox)) := by
      show ((net s).advance I i).map (Function.update net s) = _
      rw [(h.is s).node, hloaded, hn]
      rfl
    obtain ⟨tables, d, rfl⟩ := hframe n hn
    refine hnode (.advance s i) rfl (fun _ => trivial) ⟨trivial, trivial⟩ hadvance (h.is s).closed (h.is s).idle
      (fun t ht => upcoming_set ?_)
    rintro rfl
    exact h.waits_upcoming ht hnone
  | serve s sh =>
    obtain ⟨n, hn, rfl⟩ := Option.map_eq_some_iff.mp hstep
    have hserve : net.step I (.serve s sh) = some (Function.update net s (n.loaded (net s).outbox)) := by
      show ((net s).serve sh).map (Function.update net s) = _
      rw [(h.is s).node, serve_loaded, hn]
      rfl
    obtain ⟨hcalls, hclosed, hreader, hbusy⟩ := serve_frame hn
    refine hnode (.serve s sh) rfl (fun _ => trivial) ⟨trivial, trivial⟩ hserve ?_ ?_ ?_
    · rw [hclosed]
      exact (h.is s).closed
    · intro hw
      exact absurd ((h.is s).idle hw) hbusy
    · intro t ht
      cases t with
      | reader => exact absurd hreader (h.waits_upcoming ht)
      | call i => simp only [Station.upcoming, hcalls]
  | call s request reqId timeout =>
    cases hstep
    have hpubkey : (net s.other).pubkey = (c.side s.other).node.pubkey := by
      rw [(h.is s.other).node]
      rfl
    have hcall : net.step I (.call s request reqId timeout) = some (Function.update net s
        (((c.side s).node.call I (c.side s.other).node.pubkey request reqId timeout).loaded
          (net s).outbox)) := by
      show some (Function.update net s ((net s).call I (net s.other).pubkey request reqId timeout)) = _
      rw [hpubkey]
      conv_lhs => rw [(h.is s).node]
      rfl
    refine hnode (.call s request reqId timeout) rfl (fun hp => hp.elim) ⟨⟨hcalm.1, fun u d hd => ?_, hcalm.2.2⟩, trivial⟩
      hcall (h.is s).closed (h.is s).idle ?_
    · rw [(h.is u).node] at hd
      exact hcalm.2.1 u d hd
    · intro t ht
      cases t with
      | reader => rfl
      | call i =>
        obtain ⟨x, hx⟩ := Option.ne_none_iff_exists'.mp (h.waits_upcoming ht)
        obtain ⟨d, _, _, hd, _⟩ := upcoming_call hx
        have hlt := (List.getElem?_eq_some_iff.mp hd).1
        simp only [Station.upcoming, Node.call, List.getElem?_append_left hlt]
  | own s sh call =>
    cases hstep
    have hown : net.step I (.own s sh call) = some (Function.update net s
        (({ (c.side s).node with
          manager := AnyKey.after (c.side s).node.manager (sh (c.side s).node.cfg.stripeCount) call }
            : Node K).loaded (net s).outbox)) := by
      simp only [Net.step]
      conv_lhs => rw [(h.is s).node]
      rfl
    have hkey : net.Undisturbed I (.own s sh call) := by cases call <;> exact hcalm
    exact hnode (.own s sh call) rfl (fun hp => hp.elim) ⟨hkey, trivial⟩ hown (h.is s).closed (h.is s).idle
      (fun t _ => by cases t <;> rfl)
  | timeout s i => exact hcalm.elim

end Steps

end Memnode.Replication
