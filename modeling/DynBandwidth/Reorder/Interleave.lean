import DynBandwidth.Reorder.Counter
import DynBandwidth.Reorder.IpIds
import DynBandwidth.Reorder.TcpCounter

/-! # Interleavings of flows

The three counters find the flow of a packet in an array of lists that grows in the order of
arrival. The order in which the packets of different flows arrive does not matter: two traces with
the same packets for every pair of ports end with the same flows and the same count, which is the
sum of what each flow counts alone (`interleaving_irrelevant`). -/

namespace DynBandwidth.Reorder.Interleave

open DynBandwidth.Lib.Runs
open DynBandwidth.Reorder.Header DynBandwidth.Reorder.Flows

/-- The programs with an `rc_handle_packet`. -/
inductive Program
  | reorderCounter
  | tcpReordercounter
  | ipReordercounter
  deriving DecidableEq, Repr

def Program.handler : Program → Handler
  | .reorderCounter => Counter.handler
  | .tcpReordercounter => TcpCounter.handler
  | .ipReordercounter => IpIds.handler

def Program.rcHandlePacket (P : Program) : Rc → Packet → Option Rc := P.handler.rcHandlePacket

def ports (p : Packet) : U16 × U16 := (p.sport, p.dport)

theorem keeps (P : Program) : ∃ I, P.handler.Keeps I := by
  rcases P with _ | _ | _
  · exact ⟨_, Counter.keeps_sized⟩
  · exact ⟨_, TcpCounter.keeps_plain⟩
  · exact ⟨_, IpIds.keeps_plain⟩

/-- A trace runs to its end, and flow by flow as each flow does alone. -/
theorem run_flows (P : Program) (tr : List Packet) :
    ∃ rc, ∃ st : U16 × U16 → FlowState, run P.rcHandlePacket Rc.init tr = some rc ∧
      (∀ k, run P.handler.flowStep ⟨none, 0, []⟩ (tr.filter (ofFlow k.1 k.2)) = some (st k)) ∧
      (∀ k, (st k).buf = rc.flow k.1 k.2) ∧
      rc.reorderCount = ∑ k ∈ (tr.map ports).toFinset, (st k).counted := by
  obtain ⟨I, hk⟩ := keeps P
  obtain ⟨rc, hr, -⟩ := hk.run_all tr (all_init I)
  obtain ⟨-, st, hrun, hbuf, hsum⟩ := run_decompose P.handler wf_init hr
  refine ⟨rc, st, hr, fun k => ?_, hbuf, ?_⟩
  · rw [← flow_init k.1 k.2]
    exact hrun k
  · have h := hsum (tr.map ports).toFinset fun p hp =>
      List.mem_toFinset.mpr (List.mem_map_of_mem (f := ports) hp)
    exact h.trans (zero_add _)

/-- What a flow counts alone. -/
theorem run_alone (P : Program) {s d : U16} {tr : List Packet} {st : FlowState}
    (h : run P.handler.flowStep ⟨none, 0, []⟩ (tr.filter (ofFlow s d)) = some st) :
    ∃ rc, run P.rcHandlePacket Rc.init (tr.filter (ofFlow s d)) = some rc ∧
      rc.reorderCount = st.counted := by
  obtain ⟨rc, hr, -, -, -, hcount, -⟩ := run_single P.handler wf_init
    (fun p hp => ofFlow_iff.mp (List.mem_filter.mp hp).2) (flow_init s d) h
  exact ⟨rc, hr, (add_zero _).symm.trans (hcount.trans (zero_add _))⟩

theorem mem_of_filter {tr tr' : List Packet}
    (h : ∀ s d, tr.filter (ofFlow s d) = tr'.filter (ofFlow s d)) {p : Packet} (hp : p ∈ tr) :
    p ∈ tr' := by
  have hmem : p ∈ tr.filter (ofFlow p.sport p.dport) :=
    List.mem_filter.mpr ⟨hp, ofFlow_iff.mpr ⟨rfl, rfl⟩⟩
  rw [h] at hmem
  exact (List.mem_filter.mp hmem).1

/-- **Flows do not interfere**: for each of the three programs, two traces with the same packets in
the same order for every pair of ports end with the same flow buffer, or none, for every pair, and
with the same count. The count is the sum, modulo `2 ^ 64`, of what the packets of each pair count
when they are handled alone. -/
theorem interleaving_irrelevant (P : Program) {tr tr' : List Packet}
    (h : ∀ s d, tr.filter (ofFlow s d) = tr'.filter (ofFlow s d)) :
    ∃ rc rc', run P.rcHandlePacket Rc.init tr = some rc ∧
      run P.rcHandlePacket Rc.init tr' = some rc' ∧
      (∀ s d, rc.flow s d = rc'.flow s d) ∧ rc.reorderCount = rc'.reorderCount ∧
      ∃ alone : U16 × U16 → Rc,
        (∀ k, run P.rcHandlePacket Rc.init (tr.filter (ofFlow k.1 k.2)) = some (alone k)) ∧
        rc.reorderCount = ∑ k ∈ (tr.map ports).toFinset, (alone k).reorderCount := by
  obtain ⟨rc, st, hr, hst, hbuf, hsum⟩ := run_flows P tr
  obtain ⟨rc', st', hr', hst', hbuf', hsum'⟩ := run_flows P tr'
  have heq : ∀ k, st k = st' k := fun k =>
    Option.some.inj ((hst k).symm.trans ((congrArg _ (h k.1 k.2)).trans (hst' k)))
  have hkeys : (tr.map ports).toFinset = (tr'.map ports).toFinset := by
    ext k
    simp only [List.mem_toFinset, List.mem_map]
    constructor
    · rintro ⟨p, hp, rfl⟩
      exact ⟨p, mem_of_filter h hp, rfl⟩
    · rintro ⟨p, hp, rfl⟩
      exact ⟨p, mem_of_filter (fun s d => (h s d).symm) hp, rfl⟩
  choose alone halone hcount using fun k => run_alone P (hst k)
  refine ⟨rc, rc', hr, hr', fun s d => ?_, ?_, alone, halone, ?_⟩
  · have h1 := hbuf (s, d)
    have h2 := hbuf' (s, d)
    rw [heq] at h1
    exact h1.symm.trans h2
  · rw [hsum, hsum', hkeys]
    exact Finset.sum_congr rfl fun k _ => by rw [heq]
  · rw [hsum]
    exact Finset.sum_congr rfl fun k _ => (hcount k).symm

/-- Two flows of one source port, so that both are in one list, with three and two packets: the
second one of the first flow is missing at first. -/
def flowA (seq : U32) : Packet := ⟨7, 9, 100, seq, 16, 1⟩
def flowB (seq : U32) : Packet := ⟨7, 10, 100, seq, 16, 1⟩

def mixed : List Packet := [flowA 1000, flowB 5000, flowA 1200, flowB 5200, flowA 1100]
def apart : List Packet := [flowB 5000, flowB 5200, flowA 1000, flowA 1200, flowA 1100]

theorem filter_mixed (s d : U16) : mixed.filter (ofFlow s d) = apart.filter (ofFlow s d) := by
  by_cases hd : d = 9
  · have hB (seq : U32) : ofFlow s d (flowB seq) = false :=
      Bool.eq_false_iff.mpr fun h =>
        absurd ((ofFlow_iff.mp h).2.trans hd) (show ¬ (10 : U16) = 9 by decide)
    simp [mixed, apart, List.filter_cons, hB]
  · have hA (seq : U32) : ofFlow s d (flowA seq) = false :=
      Bool.eq_false_iff.mpr fun h => hd (ofFlow_iff.mp h).2.symm
    simp [mixed, apart, List.filter_cons, hA]

theorem interleaving_irrelevant_mixed : ∃ rc rc',
    run (Program.rcHandlePacket .reorderCounter) Rc.init mixed = some rc ∧
    run (Program.rcHandlePacket .reorderCounter) Rc.init apart = some rc' ∧
    (∀ s d, rc.flow s d = rc'.flow s d) ∧ rc.reorderCount = rc'.reorderCount ∧
    rc.reorderCount = 2 := by
  obtain ⟨rc, rc', h1, h2, h3, h4, -⟩ := interleaving_irrelevant .reorderCounter filter_mixed
  have hcount : (run (Program.rcHandlePacket .reorderCounter) Rc.init mixed).map
      Rc.reorderCount = some 2 := by decide +kernel
  rw [h1] at hcount
  exact ⟨rc, rc', h1, h2, h3, h4, Option.some.inj hcount⟩

end DynBandwidth.Reorder.Interleave
