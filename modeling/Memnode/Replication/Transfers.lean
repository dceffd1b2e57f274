/-
Memnode.Replication.Transfers — concurrent remote calls between two nodes.

`Inv` says that every call of either node is in a stage, that request
ids are unique, and that nothing in the network is about a request
nobody made. Every event that makes progress moves exactly one request
and leaves the slices of all others alone (`moved_of_progress`), so the
invariant is kept (`Inv.moved`) and a rank goes down (`rank_moved`): the
number of requests whose BlockManager call is still to come, then the
total weight. `transfers_exact` puts the pieces together.
-/
import Mathlib.Algebra.Order.BigOperators.Group.Finset
import Mathlib.Order.WellFounded
import Memnode.Replication.Arrivals

set_option linter.unusedSectionVars false

namespace Memnode.Replication

open Lib Blocks

variable {K : Type} [DecidableEq K] (I : Interpreter K)

/-! ## The invariant -/

/-- A call of either node has this request id. -/
def Owned (net : Net K) (k : K) : Prop := ∃ s, ∃ c ∈ (net s).calls, I.strKey c.reqId = k

structure Inv (net : Net K) : Prop where
  unique : ∀ {s t : Side} {i j : Nat} {c d : RemoteCall}, (net s).calls[i]? = some c →
    (net t).calls[j]? = some d → c.reqId = d.reqId → s = t ∧ i = j
  named : ∀ s, ∀ c ∈ (net s).calls, c.reqId ≠ ""
  opened : ∀ s, (net s).closed = false
  keyed : ∀ s, (net s).Keyed I
  unowned : ∀ s k, ¬ Owned I net k → (net s).slice I k = .empty
  staged : ∀ {s : Side} {i : Nat} {c : RemoteCall}, (net s).calls[i]? = some c →
    Stage I (net s).chunking (net s.other).chunking i c ((net s).slice I (I.strKey c.reqId))
      ((net s.other).slice I (I.strKey c.reqId))
  keys : ∀ s, ∀ c ∈ (net s).calls, c.request.hashable I = true
  hashable : ∀ s, AnyKey.Hashable (net s).manager

/-- What is not empty belongs to a call. -/
theorem Inv.owner {net : Net K} (h : Inv I net) {s : Side} {k : K}
    (hne : (net s).slice I k ≠ .empty) :
    ∃ (t : Side) (i : Nat) (c : RemoteCall), (net t).calls[i]? = some c ∧ I.strKey c.reqId = k := by
  by_contra hno
  refine hne (h.unowned s k ?_)
  rintro ⟨t, c, hc, hk⟩
  obtain ⟨i, hi⟩ := List.mem_iff_getElem?.mp hc
  exact hno ⟨t, i, c, hi, hk⟩

/-- Request `c` moved and became `c'`; nothing else did. -/
structure Moved (net net' : Net K) (s : Side) (i : Nat) (c c' : RemoteCall) : Prop where
  here : (net s).calls[i]? = some c
  reqId : c'.reqId = c.reqId
  request : c'.request = c.request
  calls : (net' s).calls = (net s).calls.set i c'
  callsOther : (net' s.other).calls = (net s.other).calls
  locally : ∀ t, Local I (I.strKey c.reqId) (net t) (net' t)
  stage : Stage I (net s).chunking (net s.other).chunking i c'
    ((net' s).slice I (I.strKey c.reqId)) ((net' s.other).slice I (I.strKey c.reqId))

section Moving

variable {net net' : Net K} {s : Side} {i : Nat} {c c' : RemoteCall}

/-- The calls after a move. -/
theorem Moved.lookup (h : Moved I net net' s i c c') {t : Side} {j : Nat} {d : RemoteCall}
    (hd : (net' t).calls[j]? = some d) :
    (t = s ∧ j = i ∧ d = c') ∨ (¬ (t = s ∧ j = i) ∧ (net t).calls[j]? = some d) := by
  rcases Side.eq_or_other s t with rfl | rfl
  · rw [h.calls, List.getElem?_set] at hd
    by_cases hj : i = j
    · subst hj
      have hlt := (List.getElem?_eq_some_iff.mp h.here).1
      simp only [if_true, hlt, Option.some.injEq] at hd
      exact Or.inl ⟨rfl, rfl, hd.symm⟩
    · rw [if_neg hj] at hd
      exact Or.inr ⟨fun hh => hj hh.2.symm, hd⟩
  · rw [h.callsOther] at hd
    exact Or.inr ⟨fun hh => Side.other_ne _ hh.1, hd⟩

/-- Every call after a move comes from one of the same request. -/
theorem Moved.origin (h : Moved I net net' s i c c') {t : Side} {j : Nat} {d : RemoteCall}
    (hd : (net' t).calls[j]? = some d) :
    ∃ d₀, (net t).calls[j]? = some d₀ ∧ d₀.reqId = d.reqId ∧ d₀.request = d.request := by
  rcases h.lookup I hd with ⟨rfl, rfl, rfl⟩ | ⟨_, hd⟩
  · exact ⟨c, h.here, h.reqId.symm, h.request.symm⟩
  · exact ⟨d, hd, rfl, rfl⟩

theorem Moved.owned (h : Moved I net net' s i c c') {k : K} (hk : Owned I net k) :
    Owned I net' k := by
  obtain ⟨t, d, hd, rfl⟩ := hk
  obtain ⟨j, hj⟩ := List.mem_iff_getElem?.mp hd
  by_cases hsame : t = s ∧ j = i
  · obtain ⟨rfl, rfl⟩ := hsame
    rw [h.here] at hj
    cases hj
    have hlt := (List.getElem?_eq_some_iff.mp h.here).1
    refine ⟨t, c', ?_, by rw [h.reqId]⟩
    rw [h.calls]
    exact List.mem_iff_getElem?.mpr ⟨j, by simp [hlt]⟩
  · refine ⟨t, d, List.mem_iff_getElem?.mpr ⟨j, ?_⟩, rfl⟩
    rcases Side.eq_or_other s t with rfl | rfl
    · rw [h.calls, List.getElem?_set, if_neg (fun hji => hsame ⟨rfl, hji.symm⟩)]
      exact hj
    · rw [h.callsOther]
      exact hj

/-- Another call keeps its stage. -/
theorem Inv.slice_other (hinv : Inv I net) (h : Moved I net net' s i c c') {t : Side} {j : Nat}
    {d : RemoteCall} (hd : (net t).calls[j]? = some d) (hne : ¬ (t = s ∧ j = i)) (u : Side) :
    (net' u).slice I (I.strKey d.reqId) = (net u).slice I (I.strKey d.reqId) := by
  refine (h.locally u).slice I (fun hkey => hne ?_)
  exact hinv.unique hd h.here (I.strKey_injective hkey)

/-- **A move keeps the invariant.** -/
theorem Inv.moved (hinv : Inv I net) (h : Moved I net net' s i c c')
    (hhashable : ∀ t, AnyKey.Hashable (net' t).manager) : Inv I net' where
  unique := by
    intro t u j l d e hd he hreq
    obtain ⟨d₀, hd₀, hdreq, _⟩ := h.origin I hd
    obtain ⟨e₀, he₀, hereq, _⟩ := h.origin I he
    exact hinv.unique hd₀ he₀ (by rw [hdreq, hereq, hreq])
  named := by
    intro t d hd
    obtain ⟨j, hj⟩ := List.mem_iff_getElem?.mp hd
    obtain ⟨d₀, hd₀, hreq, _⟩ := h.origin I hj
    rw [← hreq]
    exact hinv.named t d₀ (List.mem_iff_getElem?.mpr ⟨j, hd₀⟩)
  opened := fun t => (h.locally t).closed.trans (hinv.opened t)
  keyed := fun t => (h.locally t).keyed I (hinv.keyed t)
  unowned := by
    intro t k hk
    have hk₀ : ¬ Owned I net k := fun ho => hk (h.owned I ho)
    rw [(h.locally t).slice I, hinv.unowned t k hk₀]
    rintro rfl
    exact hk₀ ⟨s, c, List.mem_iff_getElem?.mpr ⟨i, h.here⟩, rfl⟩
  staged := by
    intro t j d hd
    rw [(h.locally t).chunking, (h.locally t.other).chunking]
    rcases h.lookup I hd with ⟨rfl, rfl, rfl⟩ | ⟨hne, hd⟩
    · rw [h.reqId]
      exact h.stage
    · rw [hinv.slice_other I h hd hne, hinv.slice_other I h hd hne]
      exact hinv.staged hd
  keys := by
    intro t d hd
    obtain ⟨j, hj⟩ := List.mem_iff_getElem?.mp hd
    obtain ⟨d₀, hd₀, _, hrequest⟩ := h.origin I hj
    rw [← hrequest]
    exact hinv.keys t d₀ (List.mem_iff_getElem?.mpr ⟨j, hd₀⟩)
  hashable := hhashable

end Moving

/-! ## Every step of progress is a move -/

/-- The request is closer to its end: its BlockManager call was made, or
its weight went down. -/
def Closer (net net' : Net K) (s : Side) (c c' : RemoteCall) : Prop :=
  (((net s.other).slice I (I.strKey c.reqId)).log = [] ∧
    ((net' s.other).slice I (I.strKey c.reqId)).log ≠ []) ∨
  (((net' s.other).slice I (I.strKey c.reqId)).log
      = ((net s.other).slice I (I.strKey c.reqId)).log ∧
    weight c' ((net' s).slice I (I.strKey c.reqId)) ((net' s.other).slice I (I.strKey c.reqId))
      < weight c ((net s).slice I (I.strKey c.reqId)) ((net s.other).slice I (I.strKey c.reqId)))

section Progress

variable {net : Net K}

theorem moved_advance (hinv : Inv I net) {s : Side} {i : Nat} {n' : Node K}
    (h : (net s).advance I i = some n') :
    ∃ c c', Moved I net (Function.update net s n') s i c c' ∧
      Closer I net (Function.update net s n') s c c' := by
  cases hc : (net s).calls[i]? with
  | none => simp [Node.advance, hc] at h
  | some c =>
    obtain ⟨c', hadv⟩ := advanced_of_advance I hc (hinv.opened s) (hinv.staged hc) h
    have hself : Function.update net s n' s = n' := Function.update_self _ _ _
    have hother : Function.update net s n' s.other = net s.other :=
      Function.update_of_ne (Side.other_ne s) _ _
    refine ⟨c, c', ⟨hc, hadv.reqId, hadv.request, by rw [hself, hadv.calls], by rw [hother],
      fun t => ?_, by rw [hself, hother]; exact hadv.stage⟩, Or.inr ⟨by rw [hother], ?_⟩⟩
    · rcases Side.eq_or_other s t with rfl | rfl
      · rw [hself]
        exact hadv.moved
      · rw [hother]
        exact Local.refl I _ _
    · rw [hself, hother]
      exact hadv.lighter

/-- A busy handler works for a call of the other node. -/
theorem Inv.handler_owner (hinv : Inv I net) {s : Side} (hbusy : (net s).handler ≠ .idle) :
    ∃ (i : Nat) (c : RemoteCall), (net s.other).calls[i]? = some c ∧
      (net s).handler.Only I (I.strKey c.reqId) := by
  obtain ⟨id, hid⟩ : ∃ id, (net s).handler.reqId = some id := by
    cases hh : (net s).handler <;> simp_all [Handler.reqId]
  obtain ⟨k, hk⟩ := (hinv.keyed s).handler id hid
  have honly : (net s).handler.Only I k := by
    intro id' hid'
    rw [hid] at hid'
    cases hid'
    exact hk
  have habout : ((net s).slice I k).handler ≠ .idle := by
    rw [show ((net s).slice I k).handler = (net s).handler from honly.about_self I]
    exact hbusy
  obtain ⟨t, i, c, hc, rfl⟩ := hinv.owner I (s := s) (k := k) (fun he => habout (by rw [he]; rfl))
  rcases Side.eq_or_other s t with rfl | rfl
  · -- at the asking node no handler works for the request
    exact absurd (hinv.staged hc).client_handler habout
  · exact ⟨i, c, hc, honly⟩

/-- A step of the serving node. -/
theorem moved_serving {s : Side} {i : Nat} {c : RemoteCall} {n' : Node K}
    (hc : (net s.other).calls[i]? = some c) (hlocal : Local I (I.strKey c.reqId) (net s) n')
    (hcalls : n'.calls = (net s).calls)
    (hstage : Stage I (net s.other).chunking (net s).chunking i c
      ((net s.other).slice I (I.strKey c.reqId)) (n'.slice I (I.strKey c.reqId))) :
    Moved I net (Function.update net s n') s.other i c c := by
  have hself : Function.update net s n' s = n' := Function.update_self _ _ _
  have hother : Function.update net s n' s.other = net s.other :=
    Function.update_of_ne (Side.other_ne s) _ _
  refine ⟨hc, rfl, rfl, ?_, ?_, fun t => ?_, ?_⟩
  · rw [hother]
    exact resolveAll_nil hc
  · rw [Side.other_other, hself]
    exact hcalls
  · rcases Side.eq_or_other s t with rfl | rfl
    · rw [hself]
      exact hlocal
    · rw [hother]
      exact Local.refl I _ _
  · rw [Side.other_other, hself, hother]
    exact hstage

theorem moved_serve (hinv : Inv I net) {s : Side} {sh : (stripes : Nat) → Shuffles stripes}
    {n' : Node K} (h : (net s).serve sh = some n') :
    (∃ i c, Moved I net (Function.update net s n') s.other i c c ∧
      Closer I net (Function.update net s n') s.other c c) ∧ AnyKey.Hashable n'.manager := by
  have hbusy : (net s).handler ≠ .idle := by
    intro hidle
    simp [Node.serve, hidle, Handler.serve] at h
  obtain ⟨i, c, hc, honly⟩ := hinv.handler_owner I hbusy
  have hst := hinv.staged hc
  rw [Side.other_other] at hst
  obtain ⟨hlocal, hcalls, hleft, hstage, hbefore, hafter⟩ := stage_of_serve I hst honly rfl
    (hinv.keys _ c (List.mem_of_getElem? hc)) (hinv.hashable s) h
  refine ⟨⟨i, c, moved_serving I hc hlocal hcalls hstage, Or.inl ?_⟩, hleft⟩
  rw [Side.other_other, Function.update_self]
  exact ⟨hbefore, hafter⟩

theorem moved_reply (hinv : Inv I net) {s : Side} {n' : Node K} (h : (net s).reply = some n') :
    ∃ i c, Moved I net (Function.update net s n') s.other i c c ∧
      Closer I net (Function.update net s n') s.other c c := by
  have hbusy : (net s).handler ≠ .idle := by
    intro hidle
    simp [Node.reply, hidle] at h
  obtain ⟨i, c, hc, honly⟩ := hinv.handler_owner I hbusy
  have hst := hinv.staged hc
  rw [Side.other_other] at hst
  obtain ⟨hlocal, hcalls, hstage, hlog, hlighter⟩ :=
    stage_of_reply I hst honly (hinv.opened s) h
  refine ⟨i, c, moved_serving I hc hlocal hcalls hstage, Or.inr ?_⟩
  rw [Side.other_other, Function.update_self, Function.update_of_ne (Side.other_ne s)]
  exact ⟨hlog, hlighter⟩

/-- The nodes after a delivery. -/
def delivered (net : Net K) (s : Side) (j : Nat) (now : Rat) (msg : Message) : Net K :=
  Function.update (Function.update net s { net s with outbox := (net s).outbox.eraseIdx j })
    s.other ((net s.other).receive I now (net s).pubkey msg)

theorem delivered_self (s : Side) (j : Nat) (now : Rat) (msg : Message) :
    delivered I net s j now msg s = { net s with outbox := (net s).outbox.eraseIdx j } := by
  rw [delivered, Function.update_of_ne (Side.ne_other s), Function.update_self]

theorem delivered_other (s : Side) (j : Nat) (now : Rat) (msg : Message) :
    delivered I net s j now msg s.other = (net s.other).receive I now (net s).pubkey msg := by
  rw [delivered, Function.update_self]

/-- What a delivery finds when the message fits a frame: it is the first
of its stream, and the other side is idle. -/
theorem deliver_eq_some {net net' : Net K} {s : Side} {j : Nat} {now : Rat}
    (hfits : net.Fits I (.deliver s j now)) (h : net.deliver I s j now = some net') :
    ∃ x msg', (net s).outbox[j]? = some x ∧
      ((net s).outbox.take j).any (fun y => y.1 = x.1) = false ∧ x.2.transmit I.packer = some msg' ∧
      (net s.other).handler = .idle ∧ net' = delivered I net s j now msg' := by
  simp only [Net.deliver] at h
  split at h
  · cases h
  · rename_i stream msg hx
    split at h
    · cases h
    · rename_i hfirst
      have hfirst' : ((net s).outbox.take j).any (fun y => y.1 = stream) = false := by
        rw [← Bool.not_eq_true]
        exact fun hany => hfirst (Or.inr hany)
      split at h
      · rename_i hnone
        exact absurd hnone (hfits (stream, msg) hx)
      · rename_i msg' hmsg
        split at h
        · rename_i hidle
          exact ⟨(stream, msg), msg', hx, hfirst', hmsg, hidle, (Option.some.inj h).symm⟩
        · cases h

/-- The sender of a delivered message. -/
theorem local_sender (s : Side) {j : Nat} (now : Rat) {x : Int × Message} {k : K}
    (hx : (net s).outbox[j]? = some x) (hk : reqKey I x.2 = some k) :
    Local I k (net s) (delivered I net s j now x.2 s) := by
  rw [delivered_self]
  exact ⟨rfl, rfl, .refl _ _, Or.inl rfl, Or.inr (Or.inr ⟨j, x, hx, hk, rfl⟩), Or.inl rfl⟩

/-- The receiver of a delivered message. -/
theorem local_receiver {s : Side} (j : Nat) {now : Rat} {msg : Message} {k : K}
    (hidle : (net s.other).handler = .idle)
    (htables : (net s.other).coordinator.SameExcept k
      (handleMessage I now (net s.other).coordinator (net s).pubkey msg).coordinator)
    (honly : (handleMessage I now (net s.other).coordinator (net s).pubkey msg).next.Only I k) :
    Local I k (net s.other) (delivered I net s j now msg s.other) := by
  rw [delivered_other]
  exact ⟨rfl, rfl, htables, Or.inr ⟨by rw [hidle]; exact only_idle I k, honly⟩, Or.inl rfl,
    Or.inl rfl⟩

theorem slice_sender (net : Net K) (s : Side) (j : Nat) (now : Rat) (msg : Message) (k : K) :
    (delivered I net s j now msg s).slice I k
      = { (net s).slice I k with queue := queueOf I k ((net s).outbox.eraseIdx j) } := by
  rw [delivered_self]
  rfl

theorem slice_receiver {s : Side} (j : Nat) {now : Rat} {msg : Message} {k : K}
    (honly : (handleMessage I now (net s.other).coordinator (net s).pubkey msg).next.Only I k) :
    (delivered I net s j now msg s.other).slice I k
      = { ((net s.other).slice I k).withTables
            (handleMessage I now (net s.other).coordinator (net s).pubkey msg).coordinator k with
          handler := (handleMessage I now (net s.other).coordinator (net s).pubkey msg).next } := by
  rw [delivered_other]
  simp only [Node.slice, Node.receive, Slice.withTables, honly.about_self I]

theorem tables_slice (n : Node K) (k : K) : Tables n.coordinator k (n.slice I k) := ⟨rfl, rfl, rfl⟩

/-- A request message is delivered. -/
theorem moved_request (hinv : Inv I net) {s : Side} {i j : Nat} {now : Rat} {c : RemoteCall}
    (hc : (net s).calls[i]? = some c) {x : Int × Message} (hx : (net s).outbox[j]? = some x)
    (hk : reqKey I x.2 = some (I.strKey c.reqId))
    (hqueue : ((net s).slice I (I.strKey c.reqId)).queue
      = x :: queueOf I (I.strKey c.reqId) ((net s).outbox.eraseIdx j))
    (hidle : (net s.other).handler = .idle) (hcalm : net.Undisturbed I (.deliver s j now))
    (hfits : x.2.transmit I.packer ≠ none) :
    Moved I net (delivered I net s j now x.2) s i c c ∧
      Closer I net (delivered I net s j now x.2) s c c := by
  have hT : ((net s.other).slice I (I.strKey c.reqId)).handler = .idle := by
    simp [Node.slice, hidle]
  have harr := request_arrives I (hinv.staged hc) hqueue hT (tables_slice I _ _) (net s).pubkey
    (hinv.named s c (List.mem_of_getElem? hc)) hcalm.1 (hcalm.2 x hx) hfits
  have hS := slice_sender I net s j now x.2 (I.strKey c.reqId)
  have hR := slice_receiver I j harr.only
  refine ⟨⟨hc, rfl, rfl, ?_, ?_, fun t => ?_, ?_⟩, Or.inr ⟨?_, ?_⟩⟩
  · rw [delivered_self]
    exact resolveAll_nil hc
  · rw [delivered_other]
    simp only [Node.receive, harr.resolved, List.foldl_nil]
  · rcases Side.eq_or_other s t with rfl | rfl
    · exact local_sender I t now hx hk
    · exact local_receiver I j hidle harr.tables harr.only
  · rw [hS, hR]
    exact harr.stage
  · rw [hR]
    rfl
  · have hlight := harr.light
    have hzero : (Handler.idle : Handler K).weight = 0 := rfl
    rw [hS, hR]
    simp only [weight, hqueue, hT, hzero, List.length_cons, Slice.withTables]
    omega

/-- A reply is delivered. -/
theorem moved_answer (hinv : Inv I net) {s : Side} {i j : Nat} {now : Rat} {c : RemoteCall}
    (hc : (net s.other).calls[i]? = some c) {x : Int × Message} (hx : (net s).outbox[j]? = some x)
    (hk : reqKey I x.2 = some (I.strKey c.reqId))
    (hqueue : ((net s).slice I (I.strKey c.reqId)).queue
      = x :: queueOf I (I.strKey c.reqId) ((net s).outbox.eraseIdx j))
    (hidle : (net s.other).handler = .idle) (hcalm : net.Undisturbed I (.deliver s j now)) :
    ∃ c', Moved I net (delivered I net s j now x.2) s.other i c c' ∧
      Closer I net (delivered I net s j now x.2) s.other c c' := by
  have hst := hinv.staged hc
  rw [Side.other_other] at hst
  obtain ⟨c', hans⟩ := reply_arrives I hst hqueue (tables_slice I _ _) (net s).pubkey
    (hinv.named _ c (List.mem_of_getElem? hc)) hcalm.1
  have honly : (handleMessage I now (net s.other).coordinator (net s).pubkey x.2).next.Only I
      (I.strKey c.reqId) := by
    rw [hans.next]
    exact only_idle I _
  have hclient := (hinv.staged hc).client_handler
  have hS := slice_sender I net s j now x.2 (I.strKey c.reqId)
  have hR : (delivered I net s j now x.2 s.other).slice I (I.strKey c.reqId)
      = ((net s.other).slice I (I.strKey c.reqId)).withTables
          (handleMessage I now (net s.other).coordinator (net s).pubkey x.2).coordinator
          (I.strKey c.reqId) := by
    rw [slice_receiver I j honly, hans.next, ← hclient]
    rfl
  refine ⟨c', ⟨hc, hans.reqId, hans.request, ?_, ?_, fun t => ?_, ?_⟩, Or.inr ⟨?_, ?_⟩⟩
  · rw [delivered_other]
    exact hans.resolved _ hc
  · rw [Side.other_other, delivered_self]
  · rcases Side.eq_or_other s t with rfl | rfl
    · exact local_sender I t now hx hk
    · exact local_receiver I j hidle hans.tables honly
  · rw [Side.other_other, hS, hR]
    exact hans.stage
  · rw [Side.other_other, hS]
  · rw [Side.other_other, hS, hR]
    simp only [weight, hqueue, hans.phase, List.length_cons, Slice.withTables]
    omega

theorem moved_deliver (hinv : Inv I net) {s : Side} {j : Nat} {now : Rat} {net' : Net K}
    (hcalm : net.Undisturbed I (.deliver s j now)) (hfits : net.Fits I (.deliver s j now))
    (h : net.deliver I s j now = some net') :
    ∃ t i c c', Moved I net net' t i c c' ∧ Closer I net net' t c c' := by
  obtain ⟨x, msg', hx, hfirst, hmsg, hidle, rfl⟩ := deliver_eq_some I hfits h
  -- the message belongs to a call, and is the first of its queue
  obtain ⟨k, hk⟩ := (hinv.keyed s).outbox _ (List.mem_of_getElem? hx)
  have hmem : x ∈ ((net s).slice I k).queue :=
    List.mem_filter.mpr ⟨List.mem_of_getElem? hx, by simp [hk]⟩
  obtain ⟨t, i, c, hc, rfl⟩ := hinv.owner I (s := s) (k := k)
    (fun he => by rw [he] at hmem; exact absurd hmem List.not_mem_nil)
  have hone : OneStream c.reqId ((net s).slice I (I.strKey c.reqId)).queue := by
    rcases Side.eq_or_other s t with rfl | rfl
    · exact (hinv.staged hc).client_stream
    · have hserver := (hinv.staged hc).server_stream
      rwa [Side.other_other] at hserver
  obtain ⟨stream, hall⟩ := hone
  have hqueue := queueOf_eraseIdx_self I hx hk hfirst
    (fun y hy => (hall y hy).1.trans (hall _ hmem).1.symm)
  obtain rfl := Message.transmit_eq hmsg
  rcases Side.eq_or_other s t with rfl | rfl
  · exact ⟨t, i, c, c, moved_request I hinv hc hx hk hqueue hidle hcalm (hfits _ hx)⟩
  · obtain ⟨c', hmoved⟩ := moved_answer I hinv hc hx hk hqueue hidle hcalm
    exact ⟨s.other, i, c, c', hmoved⟩

/-- **Every step of progress moves one request.** -/
theorem moved_of_progress (hinv : Inv I net) {e : Event K} (hprogress : e.Progress)
    (hcalm : net.Undisturbed I e) (hfits : net.Fits I e) {net' : Net K}
    (h : net.step I e = some net') :
    ∃ t i c c', Moved I net net' t i c c' ∧ Closer I net net' t c c' := by
  cases e with
  | advance s i =>
    obtain ⟨n', hn', rfl⟩ := Option.map_eq_some_iff.mp h
    obtain ⟨c, c', hmoved⟩ := moved_advance I hinv hn'
    exact ⟨s, i, c, c', hmoved⟩
  | deliver s j now => exact moved_deliver I hinv hcalm hfits h
  | serve s sh =>
    obtain ⟨n', hn', rfl⟩ := Option.map_eq_some_iff.mp h
    obtain ⟨⟨i, c, hmoved⟩, _⟩ := moved_serve I hinv hn'
    exact ⟨s.other, i, c, c, hmoved⟩
  | reply s =>
    obtain ⟨n', hn', rfl⟩ := Option.map_eq_some_iff.mp h
    obtain ⟨i, c, hmoved⟩ := moved_reply I hinv hn'
    exact ⟨s.other, i, c, c, hmoved⟩
  | call => cases hprogress
  | timeout => cases hprogress
  | own => cases hprogress

theorem advance_hashable {n n' : Node K} {i : Nat} (h : n.advance I i = some n')
    (hm : AnyKey.Hashable n.manager) : AnyKey.Hashable n'.manager := by
  unfold Node.advance at h
  split at h
  · cases h
  · split at h
    · split at h <;> cases h <;> exact hm
    · obtain ⟨reply, _, hn'⟩ := Option.map_eq_some_iff.mp h
      unfold Node.onReply at hn'
      split at hn'
      · cases hn'
        exact hm
      · split at hn'
        · split at hn' <;> cases hn' <;> exact hm
        · cases hn'
          exact hm
    · split at h <;> cases h <;> exact hm
    · cases h

/-- No key without a hash is stored. -/
theorem hashable_of_progress (hinv : Inv I net) {e : Event K} (hprogress : e.Progress)
    (hfits : net.Fits I e) {net' : Net K} (h : net.step I e = some net') (t : Side) :
    AnyKey.Hashable (net' t).manager := by
  have hone : ∀ {s : Side} {n' : Node K}, AnyKey.Hashable n'.manager →
      AnyKey.Hashable (Function.update net s n' t).manager := by
    intro s n' hn'
    rcases Side.eq_or_other s t with rfl | rfl
    · rwa [Function.update_self]
    · rw [Function.update_of_ne (Side.other_ne s)]
      exact hinv.hashable _
  cases e with
  | advance s i =>
    obtain ⟨n', hn', rfl⟩ := Option.map_eq_some_iff.mp h
    exact hone (advance_hashable I hn' (hinv.hashable s))
  | deliver s j now =>
    obtain ⟨x, msg', _, _, _, _, rfl⟩ := deliver_eq_some I hfits h
    rcases Side.eq_or_other s t with rfl | rfl
    · rw [delivered_self]
      exact hinv.hashable t
    · rw [delivered_other]
      exact hinv.hashable s.other
  | serve s sh =>
    obtain ⟨n', hn', rfl⟩ := Option.map_eq_some_iff.mp h
    exact hone (moved_serve I hinv hn').2
  | reply s =>
    obtain ⟨n', hn', rfl⟩ := Option.map_eq_some_iff.mp h
    refine hone ?_
    unfold Node.reply at hn'
    split at hn'
    · split at hn' <;> cases hn' <;> exact hinv.hashable s
    · cases hn'
  | call => cases hprogress
  | timeout => cases hprogress
  | own => cases hprogress

end Progress

/-! ## Runs -/

section Runs

variable {net : Net K}

theorem inv_start (h : ∀ s, (net s).Fresh) : Inv I net := by
  have hcalls : ∀ s, (net s).calls = [] := fun s => (h s).calls
  refine ⟨?_, ?_, fun s => (h s).closed, fun s => ?_, fun s k _ => ?_, ?_, ?_,
    fun s => (h s).hashable⟩
  · intro s t i j c d hc
    simp [hcalls s] at hc
  · intro s c hc
    simp [hcalls s] at hc
  · refine ⟨by simp [(h s).outbox], ?_, by simp [(h s).log]⟩
    intro reqId hid
    simp [(h s).handler, Handler.reqId] at hid
  · simp [Node.slice, (h s).coordinator, (h s).handler, (h s).outbox, (h s).log, Coordinator.init,
      Slice.empty, queueOf, logOf, Dict.get, Dict.empty]
  · intro s i c hc
    simp [hcalls s] at hc
  · intro s c hc
    simp [hcalls s] at hc

/-- A new call asks, and has sent nothing. -/
theorem stage_call {n : Node K} (peer : String) (request : Request) (reqId timeout : String)
    (chT : Chunking) (hS : n.slice I (I.strKey reqId) = .empty) :
    Stage I n.chunking chT n.calls.length
      ⟨peer, request, reqId, timeout, none, none,
        .send true (request.header n.chunking n.coordinator.nextStream reqId)
          (request.chunks n.chunking n.coordinator.nextStream reqId)⟩
      ((n.call I peer request reqId timeout).slice I (I.strKey reqId)) .empty := by
  have hslice : (n.call I peer request reqId timeout).slice I (I.strKey reqId)
      = ⟨some n.calls.length, none, none, .idle, [], []⟩ := by
    obtain ⟨_, hbuf, hpull, hhandler, hlog, hqueue⟩ := Slice.mk.inj hS
    simp [Node.slice, Node.call, hbuf, hpull, hhandler, hlog, hqueue]
  rw [hslice]
  have hmessages : request.header n.chunking n.coordinator.nextStream reqId
      :: request.chunks n.chunking n.coordinator.nextStream reqId
      = [] ++ ([] ++ (request.header n.chunking n.coordinator.nextStream reqId
        :: request.chunks n.chunking n.coordinator.nextStream reqId)) := rfl
  exact Stage.asking hmessages (by simp) rfl rfl rfl Incoming.nothing

/-- Another request does not see a new call. -/
theorem slice_call_other (n : Node K) (peer : String) (request : Request) (reqId timeout : String)
    {k : K} (hne : k ≠ I.strKey reqId) :
    (n.call I peer request reqId timeout).slice I k = n.slice I k := by
  simp [Node.slice, Node.call, Dict.get_set, hne]

/-- An old call is where it was, and a new one is the last. -/
theorem lookup_call {n : Node K} {peer : String} {request : Request} {reqId timeout : String}
    {j : Nat} {d : RemoteCall}
    (h : (n.call I peer request reqId timeout).calls[j]? = some d) :
    n.calls[j]? = some d ∨ (j = n.calls.length ∧
      d = ⟨peer, request, reqId, timeout, none, none,
        .send true (request.header n.chunking n.coordinator.nextStream reqId)
          (request.chunks n.chunking n.coordinator.nextStream reqId)⟩) := by
  simp only [Node.call, List.getElem?_append] at h
  split at h
  · exact Or.inl h
  · rename_i hlen
    rw [List.getElem?_singleton] at h
    split at h
    · rename_i hzero
      cases h
      exact Or.inr ⟨by omega, rfl⟩
    · cases h

/-- The nodes after a new call. -/
def called (net : Net K) (s : Side) (request : Request) (reqId timeout : String) : Net K :=
  Function.update net s ((net s).call I (net s.other).pubkey request reqId timeout)

section NewCall

variable {s : Side} {request : Request} {reqId timeout : String}

theorem called_self :
    called I net s request reqId timeout s
      = (net s).call I (net s.other).pubkey request reqId timeout := Function.update_self ..

theorem called_other : called I net s request reqId timeout s.other = net s.other :=
  Function.update_of_ne (Side.other_ne s) ..

theorem called_lookup {t : Side} {j : Nat} {d : RemoteCall}
    (hd : (called I net s request reqId timeout t).calls[j]? = some d) :
    (net t).calls[j]? = some d ∨ (t = s ∧ j = (net s).calls.length ∧
      d = ⟨(net s.other).pubkey, request, reqId, timeout, none, none,
        .send true (request.header (net s).chunking (net s).coordinator.nextStream reqId)
          (request.chunks (net s).chunking (net s).coordinator.nextStream reqId)⟩) := by
  rcases Side.eq_or_other s t with rfl | rfl
  · rw [called_self] at hd
    exact (lookup_call I hd).imp_right (fun hlast => ⟨rfl, hlast⟩)
  · rw [called_other] at hd
    exact Or.inl hd

theorem called_slice (t : Side) {k : K} (hne : k ≠ I.strKey reqId) :
    (called I net s request reqId timeout t).slice I k = (net t).slice I k := by
  rcases Side.eq_or_other s t with rfl | rfl
  · rw [called_self, slice_call_other I _ _ _ _ _ hne]
  · rw [called_other]

theorem called_closed (t : Side) :
    (called I net s request reqId timeout t).closed = (net t).closed := by
  rcases Side.eq_or_other s t with rfl | rfl
  · rw [called_self]
    rfl
  · rw [called_other]

theorem called_chunking (t : Side) :
    (called I net s request reqId timeout t).chunking = (net t).chunking := by
  rcases Side.eq_or_other s t with rfl | rfl
  · rw [called_self]
    rfl
  · rw [called_other]

/-- Request ids stay unique. -/
theorem called_unique
    (hunique : ∀ {s t : Side} {i j : Nat} {c d : RemoteCall}, (net s).calls[i]? = some c →
      (net t).calls[j]? = some d → c.reqId = d.reqId → s = t ∧ i = j)
    (hnew : ∀ t, ∀ c ∈ (net t).calls, c.reqId ≠ reqId) {t u : Side} {j l : Nat} {d e : RemoteCall}
    (hd : (called I net s request reqId timeout t).calls[j]? = some d)
    (he : (called I net s request reqId timeout u).calls[l]? = some e) (hreq : d.reqId = e.reqId) :
    t = u ∧ j = l := by
  rcases called_lookup I hd with hold | ⟨rfl, rfl, rfl⟩ <;>
    rcases called_lookup I he with hold' | ⟨rfl, rfl, rfl⟩
  · exact hunique hold hold' hreq
  · exact absurd hreq (hnew t d (List.mem_of_getElem? hold))
  · exact absurd hreq.symm (hnew u e (List.mem_of_getElem? hold'))
  · exact ⟨rfl, rfl⟩

theorem called_named (hnamed : ∀ s, ∀ c ∈ (net s).calls, c.reqId ≠ "") (hname : reqId ≠ "")
    (t : Side) : ∀ c ∈ (called I net s request reqId timeout t).calls, c.reqId ≠ "" := by
  intro d hd
  obtain ⟨j, hj⟩ := List.mem_iff_getElem?.mp hd
  rcases called_lookup I hj with hj | ⟨_, _, rfl⟩
  · exact hnamed t d (List.mem_of_getElem? hj)
  · exact hname

/-- What belongs to nobody did so before. -/
theorem called_unowned {k : K} (hk : ¬ Owned I (called I net s request reqId timeout) k) :
    k ≠ I.strKey reqId ∧ ¬ Owned I net k := by
  refine ⟨?_, ?_⟩
  · rintro rfl
    exact hk ⟨s, _, by rw [called_self]; exact List.mem_append_right _ (List.mem_singleton_self _),
      rfl⟩
  · rintro ⟨u, c, hc, hkc⟩
    refine hk ⟨u, c, ?_, hkc⟩
    rcases Side.eq_or_other s u with rfl | rfl
    · rw [called_self]
      exact List.mem_append_left _ hc
    · rw [called_other]
      exact hc

theorem unowned_of_new (hnew : ∀ t, ∀ c ∈ (net t).calls, c.reqId ≠ reqId) :
    ¬ Owned I net (I.strKey reqId) := by
  rintro ⟨t, c, hc, hk⟩
  exact hnew t c hc (I.strKey_injective hk)

/-- **A new call keeps the invariant.** -/
theorem Inv.call (hinv : Inv I net) (hname : reqId ≠ "")
    (hnew : ∀ t, ∀ c ∈ (net t).calls, c.reqId ≠ reqId) (hkey : request.hashable I = true) :
    Inv I (called I net s request reqId timeout) where
  unique := called_unique I hinv.unique hnew
  named := called_named I hinv.named hname
  opened := fun t => (called_closed I t).trans (hinv.opened t)
  keyed := by
    intro t
    rcases Side.eq_or_other s t with rfl | rfl
    · rw [called_self]
      exact ⟨(hinv.keyed t).outbox, (hinv.keyed t).handler, (hinv.keyed t).log⟩
    · rw [called_other]
      exact hinv.keyed _
  unowned := by
    intro t k hk
    obtain ⟨hne, hold⟩ := called_unowned I hk
    rw [called_slice I t hne]
    exact hinv.unowned t k hold
  staged := by
    intro t j d hd
    rw [called_chunking, called_chunking]
    rcases called_lookup I hd with hd | ⟨rfl, rfl, rfl⟩
    · have hne : I.strKey d.reqId ≠ I.strKey reqId := fun hk =>
        hnew t d (List.mem_of_getElem? hd) (I.strKey_injective hk)
      rw [called_slice I t hne, called_slice I t.other hne]
      exact hinv.staged hd
    · have hempty := hinv.unowned t.other _ (unowned_of_new I hnew)
      rw [called_self, called_other, hempty]
      exact stage_call I _ request reqId timeout _ (hinv.unowned _ _ (unowned_of_new I hnew))
  keys := by
    intro t d hd
    obtain ⟨j, hj⟩ := List.mem_iff_getElem?.mp hd
    rcases called_lookup I hj with hj | ⟨_, _, rfl⟩
    · exact hinv.keys t d (List.mem_of_getElem? hj)
    · exact hkey
  hashable := by
    intro t
    rcases Side.eq_or_other s t with rfl | rfl
    · rw [called_self]
      exact hinv.hashable t
    · rw [called_other]
      exact hinv.hashable _

end NewCall

/-- After a BlockManager call of a node's own, nodes differ in the manager only. -/
theorem own_same (s : Side) (m : BlockManager (net s).cfg) (t : Side) :
    ∃ m', Function.update net s { net s with manager := m } t = { net t with manager := m' } := by
  rcases Side.eq_or_other s t with rfl | rfl
  · exact ⟨m, Function.update_self ..⟩
  · exact ⟨(net s.other).manager, Function.update_of_ne (Side.other_ne s) ..⟩

theorem own_calls (s : Side) (m : BlockManager (net s).cfg) (t : Side) :
    (Function.update net s { net s with manager := m } t).calls = (net t).calls := by
  obtain ⟨m', heq⟩ := own_same s m t
  rw [heq]

theorem own_slice (s : Side) (m : BlockManager (net s).cfg) (t : Side) (k : K) :
    (Function.update net s { net s with manager := m } t).slice I k = (net t).slice I k := by
  obtain ⟨m', heq⟩ := own_same s m t
  rw [heq]
  rfl

theorem own_owned (s : Side) (m : BlockManager (net s).cfg) {k : K} (h : Owned I net k) :
    Owned I (Function.update net s { net s with manager := m }) k := by
  obtain ⟨u, c, hc, hk⟩ := h
  exact ⟨u, c, by rw [own_calls]; exact hc, hk⟩

/-- Such a call concerns no request. -/
theorem Inv.own (hinv : Inv I net) (s : Side) {m : BlockManager (net s).cfg}
    (hm : AnyKey.Hashable m) : Inv I (Function.update net s { net s with manager := m }) where
  unique := by
    intro t u i j c d hc hd
    rw [own_calls] at hc hd
    exact hinv.unique hc hd
  named := by
    intro t c hc
    rw [own_calls] at hc
    exact hinv.named t c hc
  opened := by
    intro t
    obtain ⟨m', heq⟩ := own_same s m t
    rw [heq]
    exact hinv.opened t
  keyed := by
    intro t
    obtain ⟨m', heq⟩ := own_same s m t
    rw [heq]
    exact ⟨(hinv.keyed t).outbox, (hinv.keyed t).handler, (hinv.keyed t).log⟩
  unowned := by
    intro t k hk
    rw [own_slice]
    exact hinv.unowned t k (fun ho => hk (own_owned I s m ho))
  staged := by
    intro t i c hc
    have hchunking : ∀ u, (Function.update net s { net s with manager := m } u).chunking
        = (net u).chunking := by
      intro u
      obtain ⟨m', heq⟩ := own_same s m u
      rw [heq]
    rw [own_calls] at hc
    rw [hchunking, hchunking, own_slice, own_slice]
    exact hinv.staged hc
  keys := by
    intro t c hc
    rw [own_calls] at hc
    exact hinv.keys t c hc
  hashable := by
    intro t
    rcases Side.eq_or_other s t with rfl | rfl
    · rw [Function.update_self]
      exact hm
    · rw [Function.update_of_ne (Side.other_ne s)]
      exact hinv.hashable _

/-- An undisturbed step whose frames fit. -/
def Net.Calm (net : Net K) (e : Event K) : Prop := net.Undisturbed I e ∧ net.Fits I e

theorem Inv.step (hinv : Inv I net) {e : Event K} (hcalm : net.Calm I e) {net' : Net K}
    (h : net.step I e = some net') : Inv I net' := by
  have hmove : e.Progress → Inv I net' := by
    intro hprogress
    obtain ⟨t, i, c, c', hmoved, _⟩ := moved_of_progress I hinv hprogress hcalm.1 hcalm.2 h
    exact hinv.moved I hmoved (hashable_of_progress I hinv hprogress hcalm.2 h)
  cases e with
  | call s request reqId timeout =>
    cases h
    exact hinv.call I hcalm.1.1 hcalm.1.2.1 hcalm.1.2.2
  | own s sh c =>
    cases h
    refine hinv.own I s (AnyKey.Hashable.after (hinv.hashable s) _ ?_)
    rintro r rfl
    exact hcalm.1
  | timeout => exact absurd hcalm.1 (fun hno => hno)
  | advance => exact hmove trivial
  | deliver => exact hmove trivial
  | serve => exact hmove trivial
  | reply => exact hmove trivial

theorem inv_reachable (h : Net.Reachable I (Net.Calm I) net) : Inv I net := by
  induction h with
  | start hfresh => exact inv_start I hfresh
  | step _ hcalm hstep ih => exact ih.step I hcalm hstep

end Runs

/-! ## Termination -/

section Termination

/-- A total over the calls of both nodes. -/
def total (f : Side → Nat → Nat) (net : Net K) : Nat :=
  (∑ i ∈ Finset.range (net .left).calls.length, f .left i)
    + ∑ i ∈ Finset.range (net .right).calls.length, f .right i

/-- One for a request whose BlockManager call is still to come. -/
def unanswered (net : Net K) (s : Side) (i : Nat) : Nat :=
  match (net s).calls[i]? with
  | none => 0
  | some c => if ((net s.other).slice I (I.strKey c.reqId)).log.isEmpty then 1 else 0

/-- The weight of a request. -/
def remaining (net : Net K) (s : Side) (i : Nat) : Nat :=
  match (net s).calls[i]? with
  | none => 0
  | some c =>
      weight c ((net s).slice I (I.strKey c.reqId)) ((net s.other).slice I (I.strKey c.reqId))

def rank (net : Net K) : Nat × Nat := (total (unanswered I net) net, total (remaining I net) net)

variable {net net' : Net K} {s : Side} {i : Nat} {c c' : RemoteCall}

theorem Moved.length (h : Moved I net net' s i c c') (t : Side) :
    (net' t).calls.length = (net t).calls.length := by
  rcases Side.eq_or_other s t with rfl | rfl
  · rw [h.calls, List.length_set]
  · rw [h.callsOther]

theorem total_congr {f g : Side → Nat → Nat} (h : Moved I net net' s i c c')
    (hfg : ∀ t j, f t j = g t j) : total f net' = total g net := by
  have heq : f = g := funext (fun t => funext (hfg t))
  simp only [total, h.length, heq]

/-- A total goes down with one of its terms. -/
theorem total_lt {f g : Side → Nat → Nat} (h : Moved I net net' s i c c')
    (hle : ∀ t j, f t j ≤ g t j) (hlt : f s i < g s i) : total f net' < total g net := by
  have hi : i ∈ Finset.range (net s).calls.length :=
    Finset.mem_range.mpr (List.getElem?_eq_some_iff.mp h.here).1
  have hsum : ∀ t, ∑ j ∈ Finset.range (net t).calls.length, f t j
      ≤ ∑ j ∈ Finset.range (net t).calls.length, g t j :=
    fun t => Finset.sum_le_sum (fun j _ => hle t j)
  have hstrict : ∑ j ∈ Finset.range (net s).calls.length, f s j
      < ∑ j ∈ Finset.range (net s).calls.length, g s j :=
    Finset.sum_lt_sum (fun j _ => hle s j) ⟨i, hi, hlt⟩
  simp only [total, h.length]
  cases s with
  | left => exact Nat.add_lt_add_of_lt_of_le hstrict (hsum .right)
  | right => exact Nat.add_lt_add_of_le_of_lt (hsum .left) hstrict

/-- The call that moved, after the move. -/
theorem Moved.there (h : Moved I net net' s i c c') : (net' s).calls[i]? = some c' := by
  have hlt := (List.getElem?_eq_some_iff.mp h.here).1
  rw [h.calls]
  simp [hlt]

/-- A term of any call that did not move. -/
theorem Moved.lookup_other (h : Moved I net net' s i c c') {t : Side} {j : Nat}
    (hne : ¬ (t = s ∧ j = i)) : (net' t).calls[j]? = (net t).calls[j]? := by
  rcases Side.eq_or_other s t with rfl | rfl
  · rw [h.calls, List.getElem?_set, if_neg (fun hij => hne ⟨rfl, hij.symm⟩)]
  · rw [h.callsOther]

theorem unanswered_other (hinv : Inv I net) (h : Moved I net net' s i c c') {t : Side} {j : Nat}
    (hne : ¬ (t = s ∧ j = i)) : unanswered I net' t j = unanswered I net t j := by
  simp only [unanswered, h.lookup_other I hne]
  cases hd : (net t).calls[j]? with
  | none => rfl
  | some d => simp only [hinv.slice_other I h hd hne]

theorem remaining_other (hinv : Inv I net) (h : Moved I net net' s i c c') {t : Side} {j : Nat}
    (hne : ¬ (t = s ∧ j = i)) : remaining I net' t j = remaining I net t j := by
  simp only [remaining, h.lookup_other I hne]
  cases hd : (net t).calls[j]? with
  | none => rfl
  | some d => simp only [hinv.slice_other I h hd hne]

/-- **The rank goes down.** -/
theorem rank_moved (hinv : Inv I net) (h : Moved I net net' s i c c')
    (hcloser : Closer I net net' s c c') :
    Prod.Lex (· < ·) (· < ·) (rank I net') (rank I net) := by
  have hbefore : unanswered I net s i
      = if ((net s.other).slice I (I.strKey c.reqId)).log.isEmpty then 1 else 0 := by
    simp [unanswered, h.here]
  have hafter : unanswered I net' s i
      = if ((net' s.other).slice I (I.strKey c.reqId)).log.isEmpty then 1 else 0 := by
    simp [unanswered, h.there I, h.reqId]
  rcases hcloser with ⟨hnone, hsome⟩ | ⟨hlog, hlighter⟩
  · have hlt : unanswered I net' s i < unanswered I net s i := by
      rw [hbefore, hafter, hnone]
      simp [hsome]
    refine Prod.Lex.left _ _ (total_lt I h (fun t j => ?_) hlt)
    by_cases hne : t = s ∧ j = i
    · obtain ⟨rfl, rfl⟩ := hne
      exact hlt.le
    · exact (unanswered_other I hinv h hne).le
  · have hfirst : total (unanswered I net') net' = total (unanswered I net) net := by
      refine total_congr I h (fun t j => ?_)
      by_cases hne : t = s ∧ j = i
      · obtain ⟨rfl, rfl⟩ := hne
        rw [hbefore, hafter, hlog]
      · exact unanswered_other I hinv h hne
    have hlt : remaining I net' s i < remaining I net s i := by
      simpa [remaining, h.here, h.there I, h.reqId] using hlighter
    have hsecond : total (remaining I net') net' < total (remaining I net) net := by
      refine total_lt I h (fun t j => ?_) hlt
      by_cases hne : t = s ∧ j = i
      · obtain ⟨rfl, rfl⟩ := hne
        exact hlt.le
      · exact (remaining_other I hinv h hne).le
    rw [rank, rank, hfirst]
    exact Prod.Lex.right _ hsecond

/-- The network works on: one calm step of progress. -/
def Net.Works (net net' : Net K) : Prop := ∃ e : Event K, e.Progress ∧ net.Calm I e ∧
  net.step I e = some net'

/-- No schedule works on forever. -/
theorem Inv.terminates (hinv : Inv I net) : Acc (fun y x => Net.Works I x y) net := by
  have hwf : WellFounded (InvImage (Prod.Lex (· < ·) (· < ·)) (rank I)) :=
    InvImage.wf (rank I) (WellFounded.prod_lex wellFounded_lt wellFounded_lt)
  induction net using hwf.induction with
  | _ net ih =>
    refine Acc.intro net (fun net' hworks => ?_)
    obtain ⟨e, hprogress, hcalm, hstep⟩ := hworks
    obtain ⟨t, i, c, c', hmoved, hcloser⟩ :=
      moved_of_progress I hinv hprogress hcalm.1 hcalm.2 hstep
    exact ih net' (rank_moved I hinv hmoved hcloser) (hinv.step I hcalm hstep)

end Termination

end Memnode.Replication
