import DynBandwidth.Netfilter.Queue
import DynBandwidth.Reorder.Counter

/-! # The trees of the flows are sorted sets

`reorder_counter.c` and `nfqueue.c` insert into a search tree whose comparison is not an order on
the whole circle of numbers. In a run that inserts each number near all numbers held at that moment
(`InsertsNear`) the trees stay ascending: any two numbers held at once were compared within the
window, when the later one was inserted. So every tree is a sorted set, the search meets a segment
exactly if its number is held, and what is sent at once is sent in increasing order
(`trees_sorted`). -/

namespace DynBandwidth.SortedTrees

open DynBandwidth.Lib.Serial DynBandwidth.Lib.Buckets DynBandwidth.Lib.RbTree DynBandwidth.Lib.Runs
open DynBandwidth.Reorder.Header DynBandwidth.Reorder.SeqTree

/-! ### `reorder_counter.c` -/

namespace Counter

open DynBandwidth.Reorder.Flows DynBandwidth.Reorder.Counter

/-- The flow buffer the packet is handled on. -/
def bufferOf (rc : Rc) (p : Packet) : RcFlowbuf :=
  (rc.flow p.sport p.dport).getD (handler.fresh p)

/-- If the packet is inserted, its number is near all numbers held at that moment. -/
def InsertsNear (rc : Rc) (p : Packet) : Prop :=
  ∀ g, insertion (bufferOf rc p) p = some g → ∀ x ∈ g.held, Near p.seq x.seq

/-- Handling a packet leaves sorted sets, searches them right and sends in increasing order. -/
structure Sorted (rc : Rc) (p : Packet) (rc' : Rc) : Prop where
  sets : ∀ s d f, rc'.flow s d = some f → SortedSet RcFlowdata.seq f.root
  retransmits : ∀ g, insertion (bufferOf rc p) p = some g →
    ((insertSeq RcFlowdata.seq p.seq ⟨p.seq, p.psize⟩ (retransmit p.psize) g.root).2.isSome = true ↔
      p.seq ∈ g.held.map RcFlowdata.seq)
  releases : ∃ sent, rc'.sent = rc.sent ++ sent ∧ Increasing RcFlowdata.seq sent

/-- What such runs keep of a flow. -/
def Kept (f : RcFlowbuf) : Prop := Sized f ∧ Ascending RcFlowdata.seq f.held

theorem kept_fresh (p : Packet) : Kept (handler.fresh p) :=
  ⟨keeps_sized.fresh p, List.Pairwise.nil⟩

theorem step_sorted {rc : Rc} {p : Packet} (hall : rc.All Kept) (hn : InsertsNear rc p) :
    ∃ rc', rcHandlePacket rc p = some rc' ∧ Sorted rc p rc' ∧ rc'.All Kept := by
  have hk : Kept (bufferOf rc p) := hall.getD (kept_fresh p) _ _
  obtain ⟨f', e, hstep, hsized⟩ := keeps_sized.step _ p hk.1
  obtain ⟨rc', hr, hwf, hat, hother, -, hsent⟩ := rcHandlePacket_spec handler hall.1 hstep
  have hall' : rc'.All Kept := hall.step hwf hat ⟨hsized, ascending_step hk.2 hn hstep⟩ hother
  obtain ⟨kept, hheld, hcase⟩ := lowestFirst_split hstep
  have ha := hk.2
  rw [hheld] at ha
  refine ⟨rc', hr, ⟨fun s d f hf => (hall'.2 s d f hf).2.sortedSet, fun g hg => ?_,
    e.sent, hsent, ha.append_left.increasing⟩, hall'⟩
  rcases hcase with ⟨hnone, -⟩ | ⟨g', hg', hkept, -⟩
  · rw [hnone] at hg
    cases hg
  · rw [hg'] at hg
    cases hg
    have hag : Ascending RcFlowdata.seq g.root.toList := by
      rw [← RcFlowbuf.held, hkept]
      exact ha.append_right
    exact isSome_insertSeq_iff hag (hn g hg') _ _

end Counter

/-! ### `nfqueue.c` -/

namespace Queue

open DynBandwidth.Netfilter.Queue DynBandwidth.Netfilter.Stage

/-- The flow buffer the packet is handled on. -/
def bufferOf (nfq : Nfq) (a : Arrival) : NfqFlowbuf :=
  (nfq.flow a.pkt.sport a.pkt.dport).getD (startFlowbuf a.now a.pkt.seq)

/-- If the packet is inserted, its number is near all numbers held at that moment. -/
def InsertsNear (nfq : Nfq) : Event → Prop
  | .packet a => ∀ g, insertion a.now a.queue (bufferOf nfq a) a.pkt = some g →
      ∀ x ∈ g.held, Near a.pkt.seq x.seq
  | .timer _ _ => True

/-- The calls of a packet: held packets are accepted in increasing order, from the lowest one on,
and the other calls are an accept for the arriving packet or a drop. -/
def ReleasesOnArrival (nfq : Nfq) (a : Arrival) (nfq' : Nfq) : Prop :=
  ∃ own sent rest drops, (bufferOf nfq a).held = sent ++ rest ∧
    Increasing NfqFlowdata.seq sent ∧
    nfq'.calls = nfq.calls ++ (own ++ sent.map (accepted a.queue) ++ drops) ∧
    (∀ c ∈ own, c = ⟨a.queue, a.id, .accept⟩) ∧ ∀ c ∈ drops, c.verdict = .drop

/-- The calls of a timer that destroys a buffer: all held packets are accepted, in increasing
order. -/
def ReleasesAll (nfq : Nfq) (now : ℚ) (fbuf : ℕ) (nfq' : Nfq) : Prop :=
  ∀ c, nfq.reorderBuf.cells[fbuf]? = some c → c.val.timer.isSome = true → TimedOut now c.val →
    Increasing NfqFlowdata.seq c.val.held ∧
      nfq'.calls = nfq.calls ++ c.val.held.map (accepted nfq.queue)

/-- An event leaves sorted sets, searches them right and sends in increasing order. -/
structure Sorted (nfq : Nfq) (ev : Event) (nfq' : Nfq) : Prop where
  sets : ∀ s d f, nfq'.flow s d = some f → SortedSet NfqFlowdata.seq f.root
  retransmits : ∀ a g, ev = .packet a → insertion a.now a.queue (bufferOf nfq a) a.pkt = some g →
    ((insertSeq NfqFlowdata.seq a.pkt.seq ⟨a.pkt.seq, a.id, a.pkt.psize⟩
      (retransmit a.id a.pkt.psize) g.root).2.isSome = true ↔
        a.pkt.seq ∈ g.held.map NfqFlowdata.seq)
  releases : match ev with
    | .packet a => ReleasesOnArrival nfq a nfq'
    | .timer now fbuf => ReleasesAll nfq now fbuf nfq'

/-- What such runs keep of a flow. -/
def Kept (f : NfqFlowbuf) : Prop := Sized f ∧ Ascending NfqFlowdata.seq f.held

theorem kept_start (now : ℚ) (seq : U32) : Kept (startFlowbuf now seq) :=
  ⟨keeps_sized.start now seq, List.Pairwise.nil⟩

theorem insertOrSendPacket_drops (now : ℚ) (queue : QHandle) (f : NfqFlowbuf) (seq id : U32)
    (size : U16) : ∀ c ∈ (insertOrSendPacket now queue f seq id size).2, c.verdict = .drop := by
  unfold insertOrSendPacket
  split <;> simp

theorem step_packet {nfq : Nfq} {a : Arrival} (hall : nfq.All Kept)
    (hn : InsertsNear nfq (.packet a)) :
    ∃ nfq', step nfq (.packet a) = some nfq' ∧ Sorted nfq (.packet a) nfq' ∧ nfq'.All Kept := by
  have hk : Kept (bufferOf nfq a) := hall.getD (kept_start a.now a.pkt.seq) _ _
  obtain ⟨f', calls, hr, hsized⟩ := hk.1.resequence a.now a.queue a.id a.pkt
  obtain ⟨nfq', e, hwf, hat, hother, hcalls, -⟩ := stage_spec hall.1 hr
  obtain ⟨sent, kept, hheld, hcase⟩ := resequence_split hr
  have ha := hk.2
  rw [hheld] at ha
  have hinc := ha.append_left.increasing
  rcases hcase with ⟨hnone, hkept, hown⟩ | ⟨g, hg, hkept, hf', hown⟩
  · have hall' : nfq'.All Kept := hall.set hwf hat ⟨hsized, hkept ▸ ha.append_right⟩ hother
    refine ⟨nfq', e, ⟨fun s d f hf => (hall'.2 s d f hf).2.sortedSet, ?_, ?_⟩, hall'⟩
    · rintro _ g ⟨⟩ hg
      rw [hnone] at hg
      cases hg
    · exact ⟨[⟨a.queue, a.id, .accept⟩], sent, kept, [], hheld, hinc, by rw [hcalls, hown]; simp,
        by simp, by simp⟩
  · have hag : Ascending NfqFlowdata.seq g.root.toList := by
      rw [← NfqFlowbuf.held, hkept]
      exact ha.append_right
    have hall' : nfq'.All Kept :=
      hall.set hwf hat ⟨hsized, ascending_resequence hk.2 hn hr⟩ hother
    refine ⟨nfq', e, ⟨fun s d f hf => (hall'.2 s d f hf).2.sortedSet, ?_, ?_⟩, hall'⟩
    · rintro _ g' ⟨⟩ hg'
      rw [hg] at hg'
      cases hg'
      exact isSome_insertSeq_iff hag (hn g hg) _ _
    · exact ⟨[], sent, kept, _, hheld, hinc, by rw [hcalls, hown, List.nil_append], by simp,
        insertOrSendPacket_drops _ _ _ _ _ _⟩

theorem step_timer {nfq : Nfq} (hall : nfq.All Kept) (now : ℚ) (fbuf : ℕ) :
    ∃ nfq', step nfq (.timer now fbuf) = some nfq' ∧ Sorted nfq (.timer now fbuf) nfq' ∧
      nfq'.All Kept := by
  obtain ⟨nfq', e, hall'⟩ := hall.fire (fun _ _ hf => hf) now fbuf
  refine ⟨nfq', e, ⟨fun s d f hf => (hall'.2 s d f hf).2.sortedSet, by rintro _ _ ⟨⟩, ?_⟩, hall'⟩
  obtain ⟨L, hL, hlisted⟩ := hall.1
  obtain ⟨nfq1, L1, e1, -, -, -, -, hcase⟩ := fire_at hL hlisted now fbuf
  rw [e] at e1
  cases e1
  rcases hcase with ⟨-, -, hnot⟩ | ⟨c, hc, htimer, -, hflow, -, -, hcase⟩
  · intro c hc htimer
    rw [hnot c hc] at htimer
    cases htimer
  have hkept := hall.2 _ _ _ hflow
  refine (forall_pending_iff hc htimer (P := fun f => TimedOut now f → Increasing NfqFlowdata.seq
    f.held ∧ nfq'.calls = nfq.calls ++ f.held.map (accepted nfq.queue))).mpr fun hout => ?_
  rcases hcase with ⟨hnot, -⟩ | ⟨-, -, hcalls, -⟩
  · exact absurd hout hnot
  · exact ⟨hkept.2.increasing, hcalls⟩

end Queue

/-- **The trees are sorted sets**: along every run of `reorder_counter.c` and every run of the stage
of `nfqueue.c` whose insertions are near all numbers then held, after each step every tree is a
sorted set, the search met a segment exactly if the number was held, and the held segments that were
sent were sent in increasing order. -/
theorem trees_sorted {tr : List Packet} {evs : List DynBandwidth.Netfilter.Queue.Event}
    (htr : AllSteps Reorder.Counter.rcHandlePacket Counter.InsertsNear Reorder.Flows.Rc.init tr)
    (hevs : AllSteps Netfilter.Queue.step Queue.InsertsNear Netfilter.Queue.Nfq.init evs) :
    AllRounds Reorder.Counter.rcHandlePacket Counter.Sorted Reorder.Flows.Rc.init tr ∧
      AllRounds Netfilter.Queue.step Queue.Sorted Netfilter.Queue.Nfq.init evs := by
  constructor
  · exact allRounds_of_inv (fun _ _ hall hn => Counter.step_sorted hall hn)
      (Reorder.Flows.all_init Counter.Kept) htr
  · refine allRounds_of_inv (fun nfq ev hall hn => ?_) (Netfilter.Queue.all_init Queue.Kept) hevs
    rcases ev with a | ⟨now, fbuf⟩
    · exact Queue.step_packet hall hn
    · exact Queue.step_timer hall now fbuf

/-- Two segments behind a gap, on both sides of the wrap, one of them twice; then the gap is filled.
-/
def wrapTrace : List Packet :=
  [⟨7, 9, 1, 4294967290, 16, 0⟩, ⟨7, 9, 1, 4294967295, 16, 0⟩, ⟨7, 9, 1, 3, 16, 0⟩,
    ⟨7, 9, 2, 3, 16, 0⟩, ⟨7, 9, 4, 4294967291, 16, 0⟩]

theorem wrapTrace_near : AllSteps Reorder.Counter.rcHandlePacket Counter.InsertsNear
    Reorder.Flows.Rc.init wrapTrace := by
  refine ⟨by rintro _ ⟨⟩, ?_⟩
  rintro _ ⟨⟩
  refine ⟨by rintro _ ⟨⟩; decide, ?_⟩
  rintro _ ⟨⟩
  refine ⟨by rintro _ ⟨⟩; decide, ?_⟩
  rintro _ ⟨⟩
  refine ⟨by rintro _ ⟨⟩; decide, ?_⟩
  rintro _ ⟨⟩
  exact ⟨by rintro _ ⟨⟩, fun _ _ => trivial⟩

/-- The same packets, entering the stage. -/
def wrapArrivals : List Netfilter.Queue.Arrival := wrapTrace.map fun p => ⟨0, none, 0, p⟩

theorem wrapArrivals_near : AllSteps Netfilter.Queue.step Queue.InsertsNear
    Netfilter.Queue.Nfq.init (wrapArrivals.map Netfilter.Queue.Event.packet) := by
  refine Netfilter.Queue.allSteps_single (s := 7) (d := 9) (Q := fun st a =>
    ∀ g, Netfilter.Stage.insertion a.now a.queue
      (st.buf.getD (Netfilter.Queue.startFlowbuf a.now a.pkt.seq)) a.pkt = some g →
      ∀ x ∈ g.held, Near a.pkt.seq x.seq)
    (fun nfq st a hflow hQ g hg => hQ g (by rw [← hflow]; exact hg)) ⟨none, []⟩
    (Netfilter.Queue.all_init _) (by decide) (Netfilter.Queue.flow_init 7 9) ?_
  refine ⟨by rintro _ ⟨⟩, ?_⟩
  rintro _ ⟨⟩
  refine ⟨by rintro _ ⟨⟩; decide, ?_⟩
  rintro _ ⟨⟩
  refine ⟨by rintro _ ⟨⟩; decide, ?_⟩
  rintro _ ⟨⟩
  refine ⟨by rintro _ ⟨⟩; decide, ?_⟩
  rintro _ ⟨⟩
  exact ⟨by rintro _ ⟨⟩, fun _ _ => trivial⟩

theorem trees_sorted_wrap :
    AllSteps Reorder.Counter.rcHandlePacket Counter.InsertsNear Reorder.Flows.Rc.init wrapTrace ∧
    AllSteps Netfilter.Queue.step Queue.InsertsNear Netfilter.Queue.Nfq.init
      (wrapArrivals.map Netfilter.Queue.Event.packet) ∧
    AllRounds Reorder.Counter.rcHandlePacket Counter.Sorted Reorder.Flows.Rc.init wrapTrace ∧
    AllRounds Netfilter.Queue.step Queue.Sorted Netfilter.Queue.Nfq.init
      (wrapArrivals.map Netfilter.Queue.Event.packet) :=
  ⟨wrapTrace_near, wrapArrivals_near, trees_sorted wrapTrace_near wrapArrivals_near⟩

end DynBandwidth.SortedTrees
