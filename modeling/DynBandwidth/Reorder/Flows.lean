import DynBandwidth.Lib.BucketOps
import DynBandwidth.Lib.RbTree
import DynBandwidth.Lib.Runs
import DynBandwidth.Reorder.Header
import Mathlib.Algebra.BigOperators.Group.Finset.Piecewise

/-! # The flow table of the reorder counters

`reorder_counter.c`, `tcp_reordercounter.c` and `ip_reordercounter.c` share their state `rc` (a
counter and an array of lists of flow buffers, `reorder_counter.h`) and the first half of
`rc_handle_packet`: find the flow buffer of the ports of the packet, or append a new one. They
differ in the new buffer and in what is done with the buffer found; this is a `Handler` here.

A run of a handler is, flow by flow, the run of `flowStep` on the packets of the flow
(`run_decompose`), and a trace of one flow runs as the flow alone does (`run_single`). -/

namespace DynBandwidth.Reorder.Flows

open DynBandwidth.Lib.Buckets DynBandwidth.Lib.RbTree DynBandwidth.Lib.Runs
open DynBandwidth.Reorder.Header

structure RcFlowdata where
  seq : U32
  segSize : U16
  deriving DecidableEq, Repr

/-- A flow buffer. Its ports and its links are in the cell of the table that holds it. -/
structure RcFlowbuf where
  size : U32
  expectedNext : U32
  root : RbNode RcFlowdata
  deriving DecidableEq, Repr

/-- The segments a flow holds, as the tree lists them. -/
def RcFlowbuf.held (fbuf : RcFlowbuf) : List RcFlowdata := fbuf.root.toList

/-- The state `rc`. The list `sent` is not in the program: it records the arguments of the calls of
`send_packet_at`. -/
structure Rc where
  reorderCount : U64
  reorderBuf : Table U16 U16 RcFlowbuf
  sent : List RcFlowdata

/-- What handling a packet does outside the flow buffer: what it adds to `rc.reorder_count`, and the
segments it passes to `send_packet_at`. -/
structure Effect where
  counted : U64
  sent : List RcFlowdata

/-- The part of `rc_handle_packet` that is not the lookup: the buffer made for the first packet of a
flow, and what is done with the buffer of a packet. -/
structure Handler where
  fresh : Packet → RcFlowbuf
  handle : RcFlowbuf → Packet → Option (RcFlowbuf × Effect)

/-- **`rc_handle_packet`**: find or create the flow buffer, then handle the packet on it. -/
def Handler.rcHandlePacket (h : Handler) (rc : Rc) (p : Packet) : Option Rc := do
  let (buf, e) ← withFlow rc.reorderBuf p.sport p.dport (h.fresh p) (h.handle · p)
  some ⟨rc.reorderCount + e.counted, buf, rc.sent ++ e.sent⟩

def Rc.init : Rc := ⟨0, empty, []⟩

/-- The flow buffer of a pair of ports, if there is one. -/
def Rc.flow (rc : Rc) (s d : U16) : Option RcFlowbuf := flowAt rc.reorderBuf s d

/-- The links of the table are sound. -/
def Rc.WF (rc : Rc) : Prop := ∃ L, Linked rc.reorderBuf L

/-- The packet belongs to the flow with these ports. -/
def ofFlow (s d : U16) (p : Packet) : Bool := p.sport = s && p.dport = d

theorem ofFlow_iff {s d : U16} {p : Packet} : ofFlow s d p = true ↔ p.sport = s ∧ p.dport = d := by
  simp [ofFlow]

/-! ### One packet -/

theorem wf_init : Rc.init.WF := ⟨_, linked_empty⟩

@[simp] theorem flow_init (s d : U16) : Rc.init.flow s d = none := flowAt_empty s d

/-- **The effect of a packet**: its flow is changed by the handler, every other flow is as before.
-/
theorem rcHandlePacket_spec (h : Handler) {rc : Rc} (hwf : rc.WF) {p : Packet} {f : RcFlowbuf}
    {e : Effect} (hh : h.handle ((rc.flow p.sport p.dport).getD (h.fresh p)) p = some (f, e)) :
    ∃ rc', h.rcHandlePacket rc p = some rc' ∧ rc'.WF ∧ rc'.flow p.sport p.dport = some f ∧
      (∀ s d, ¬ (s = p.sport ∧ d = p.dport) → rc'.flow s d = rc.flow s d) ∧
      rc'.reorderCount = rc.reorderCount + e.counted ∧ rc'.sent = rc.sent ++ e.sent := by
  obtain ⟨L, hL⟩ := hwf
  obtain ⟨t', L', e1, hL', hat, hother⟩ := withFlow_spec (f := (h.handle · p)) hL hh
  exact ⟨⟨rc.reorderCount + e.counted, t', rc.sent ++ e.sent⟩, by
    simp [Handler.rcHandlePacket, e1], ⟨L', hL'⟩, hat, hother, rfl, rfl⟩

theorem rcHandlePacket_some (h : Handler) {rc rc' : Rc} (hwf : rc.WF) {p : Packet}
    (hr : h.rcHandlePacket rc p = some rc') : ∃ f e,
      h.handle ((rc.flow p.sport p.dport).getD (h.fresh p)) p = some (f, e) ∧ rc'.WF ∧
      rc'.flow p.sport p.dport = some f ∧
      (∀ s d, ¬ (s = p.sport ∧ d = p.dport) → rc'.flow s d = rc.flow s d) ∧
      rc'.reorderCount = rc.reorderCount + e.counted ∧ rc'.sent = rc.sent ++ e.sent := by
  rcases hh : h.handle ((rc.flow p.sport p.dport).getD (h.fresh p)) p with _ | ⟨f, e⟩
  · obtain ⟨L, hL⟩ := hwf
    have := withFlow_none (f := (h.handle · p)) hL hh
    simp [Handler.rcHandlePacket, this] at hr
  · obtain ⟨rc1, e1, hspec⟩ := rcHandlePacket_spec h hwf hh
    rw [e1] at hr; cases hr
    exact ⟨f, e, rfl, hspec⟩

/-! ### One flow alone -/

/-- A flow by itself: its buffer, if it has one, and what its packets have counted and sent. -/
structure FlowState where
  buf : Option RcFlowbuf
  counted : U64
  sent : List RcFlowdata

/-- A packet of the flow. -/
def Handler.flowStep (h : Handler) (st : FlowState) (p : Packet) : Option FlowState := do
  let (f, e) ← h.handle (st.buf.getD (h.fresh p)) p
  some ⟨some f, st.counted + e.counted, st.sent ++ e.sent⟩

theorem flowStep_of_handle (h : Handler) {st : FlowState} {p : Packet} {f : RcFlowbuf} {e : Effect}
    (hh : h.handle (st.buf.getD (h.fresh p)) p = some (f, e)) :
    h.flowStep st p = some ⟨some f, st.counted + e.counted, st.sent ++ e.sent⟩ := by
  simp [Handler.flowStep, hh]

theorem flowStep_buf (h : Handler) {f f' : RcFlowbuf} {p : Packet} {e : Effect}
    (hh : h.handle f p = some (f', e)) (c : U64) (l : List RcFlowdata) :
    h.flowStep ⟨some f, c, l⟩ p = some ⟨some f', c + e.counted, l ++ e.sent⟩ :=
  @flowStep_of_handle h ⟨some f, c, l⟩ p f' e hh

theorem flowStep_some (h : Handler) {st st' : FlowState} {p : Packet}
    (hs : h.flowStep st p = some st') : ∃ f e, h.handle (st.buf.getD (h.fresh p)) p = some (f, e) ∧
      st' = ⟨some f, st.counted + e.counted, st.sent ++ e.sent⟩ := by
  obtain ⟨⟨f, e⟩, h1, h2⟩ := Option.bind_eq_some_iff.mp hs
  exact ⟨f, e, h1, by simpa using h2.symm⟩

/-- **A trace of one flow runs as the flow alone does**, and touches no other flow. -/
theorem run_single (h : Handler) {s d : U16} : ∀ {tr : List Packet} {rc : Rc} {st st' : FlowState},
    rc.WF → (∀ p ∈ tr, p.sport = s ∧ p.dport = d) → rc.flow s d = st.buf →
    run h.flowStep st tr = some st' →
    ∃ rc', run h.rcHandlePacket rc tr = some rc' ∧ rc'.WF ∧ rc'.flow s d = st'.buf ∧
      (∀ s' d', ¬ (s' = s ∧ d' = d) → rc'.flow s' d' = rc.flow s' d') ∧
      rc'.reorderCount + st.counted = rc.reorderCount + st'.counted ∧
      ∃ l, rc'.sent = rc.sent ++ l ∧ st'.sent = st.sent ++ l
  | [], rc, st, st', hwf, _, hbuf, hr => by
    simp only [run_nil, Option.some.injEq] at hr
    subst hr
    exact ⟨rc, rfl, hwf, hbuf, fun _ _ _ => rfl, rfl, [], by simp, by simp⟩
  | p :: tr, rc, st, st', hwf, htr, hbuf, hr => by
    obtain ⟨st1, hs1, hr1⟩ := run_cons_some hr
    obtain ⟨f, e, hh, rfl⟩ := flowStep_some h hs1
    obtain ⟨rfl, rfl⟩ := htr p (by simp)
    rw [← hbuf] at hh
    obtain ⟨rc1, e1, hwf1, hat, hother, hcount, hsent⟩ := rcHandlePacket_spec h hwf hh
    obtain ⟨rc', hr', hwf', hbuf', hother', hcount', l, hl1, hl2⟩ :=
      run_single h hwf1 (fun q hq => htr q (by simp [hq])) hat hr1
    refine ⟨rc', run_of_step e1 hr', hwf', hbuf', fun s' d' hne => ?_, ?_, e.sent ++ l, ?_, ?_⟩
    · rw [hother' s' d' hne, hother s' d' hne]
    · rw [hcount] at hcount'
      dsimp only at hcount'
      have h1 : rc'.reorderCount + st.counted + e.counted =
          rc.reorderCount + st'.counted + e.counted := by
        rw [add_assoc, hcount']; ring
      exact add_right_cancel h1
    · rw [hl1, hsent, List.append_assoc]
    · rw [hl2, List.append_assoc]

/-! ### All flows of a run -/

/-- **A run, flow by flow**: every flow ends as it does alone on its own packets, and the counter
grows by the sum of what the flows count. -/
theorem run_decompose (h : Handler) {rc rc' : Rc} (hwf : rc.WF) {tr : List Packet}
    (hr : run h.rcHandlePacket rc tr = some rc') : rc'.WF ∧ ∃ st : U16 × U16 → FlowState,
      (∀ k, run h.flowStep ⟨rc.flow k.1 k.2, 0, []⟩ (tr.filter (ofFlow k.1 k.2)) = some (st k)) ∧
      (∀ k, (st k).buf = rc'.flow k.1 k.2) ∧
      ∀ K : Finset (U16 × U16), (∀ p ∈ tr, (p.sport, p.dport) ∈ K) →
        rc'.reorderCount = rc.reorderCount + ∑ k ∈ K, (st k).counted := by
  induction tr using List.reverseRecOn generalizing rc' with
  | nil =>
    simp only [run_nil, Option.some.injEq] at hr
    subst hr
    exact ⟨hwf, fun k => ⟨rc.flow k.1 k.2, 0, []⟩, fun _ => rfl, fun _ => rfl, fun K _ => by simp⟩
  | append_singleton tr p ih =>
    obtain ⟨rc1, hr1, hr2⟩ := run_append_some hr
    obtain ⟨rc2, hp, hr3⟩ := run_cons_some hr2
    cases hr3
    obtain ⟨hwf1, st, hrun, hbuf, hsum⟩ := ih hr1
    obtain ⟨f, e, hh, hwf', hat, hother, hcount, -⟩ := rcHandlePacket_some h hwf1 hp
    rw [← hbuf (p.sport, p.dport)] at hh
    set k0 := (p.sport, p.dport) with hk0
    refine ⟨hwf', Function.update st k0 ⟨some f, (st k0).counted + e.counted,
      (st k0).sent ++ e.sent⟩, fun k => ?_, fun k => ?_, fun K hK => ?_⟩
    · by_cases hk : k = k0
      · subst hk
        rw [List.filter_append, List.filter_cons_of_pos (by simp [ofFlow, hk0]), List.filter_nil,
          Function.update_self]
        exact run_concat (hrun _) (flowStep_of_handle h hh)
      · rw [List.filter_append, List.filter_cons_of_neg, List.filter_nil, List.append_nil,
          Function.update_of_ne hk]
        · exact hrun k
        · rw [ofFlow_iff]
          rintro ⟨h1, h2⟩
          exact hk (by rw [hk0, h1, h2])
    · by_cases hk : k = k0
      · subst hk; rw [Function.update_self]; exact hat.symm
      · rw [Function.update_of_ne hk, hbuf, hother]
        rintro ⟨h1, h2⟩
        exact hk (by rw [hk0, ← h1, ← h2])
    · have hk0K : k0 ∈ K := hK p (by simp)
      have hrest : ∑ k ∈ K.erase k0, (Function.update st k0 ⟨some f, (st k0).counted + e.counted,
          (st k0).sent ++ e.sent⟩ k).counted = ∑ k ∈ K.erase k0, (st k).counted :=
        Finset.sum_congr rfl fun k hk => by rw [Function.update_of_ne (Finset.ne_of_mem_erase hk)]
      rw [hcount, hsum K fun q hq => hK q (by simp [hq]), ← Finset.add_sum_erase K _ hk0K,
        ← Finset.add_sum_erase K _ hk0K, hrest, Function.update_self]
      dsimp only
      ring

/-! ### Runs that do not fault -/

/-- The handler keeps an invariant of flow buffers, and does not fault on buffers that have it. -/
structure Handler.Keeps (h : Handler) (I : RcFlowbuf → Prop) : Prop where
  fresh : ∀ p, I (h.fresh p)
  step : ∀ f p, I f → ∃ f' e, h.handle f p = some (f', e) ∧ I f'

/-- All flows of a sound table have the invariant. -/
def Rc.All (I : RcFlowbuf → Prop) (rc : Rc) : Prop :=
  rc.WF ∧ ∀ s d f, rc.flow s d = some f → I f

theorem all_init (I : RcFlowbuf → Prop) : Rc.init.All I := ⟨wf_init, by simp⟩

theorem Rc.All.getD {I : RcFlowbuf → Prop} {rc : Rc} (hall : rc.All I) {f : RcFlowbuf} (hf : I f)
    (s d : U16) : I ((rc.flow s d).getD f) := by
  rcases ho : rc.flow s d with _ | f'
  · exact hf
  · exact hall.2 s d f' ho

/-- An invariant of the flow changed by a packet is one of all flows. -/
theorem Rc.All.step {I : RcFlowbuf → Prop} {rc rc' : Rc} (hall : rc.All I) {s d : U16}
    {f : RcFlowbuf} (hwf : rc'.WF) (hat : rc'.flow s d = some f) (hf : I f)
    (hother : ∀ s' d', ¬ (s' = s ∧ d' = d) → rc'.flow s' d' = rc.flow s' d') : rc'.All I := by
  refine ⟨hwf, fun s' d' f' hf' => ?_⟩
  by_cases hk : s' = s ∧ d' = d
  · obtain ⟨rfl, rfl⟩ := hk
    rw [hat] at hf'; cases hf'; exact hf
  · rw [hother s' d' hk] at hf'
    exact hall.2 s' d' f' hf'

/-- No packet faults. -/
theorem Handler.Keeps.packet {h : Handler} {I : RcFlowbuf → Prop} (hk : h.Keeps I) {rc : Rc}
    (hall : rc.All I) (p : Packet) : ∃ rc', h.rcHandlePacket rc p = some rc' ∧ rc'.All I := by
  obtain ⟨f', e, hh, hf'⟩ := hk.step _ p (hall.getD (hk.fresh p) p.sport p.dport)
  obtain ⟨rc', hr, hwf, hat, hother, -⟩ := rcHandlePacket_spec h hall.1 hh
  exact ⟨rc', hr, hall.step hwf hat hf' hother⟩

/-- **Every trace runs to its end.** -/
theorem Handler.Keeps.run_all {h : Handler} {I : RcFlowbuf → Prop} (hk : h.Keeps I)
    (tr : List Packet) {rc : Rc} (hall : rc.All I) :
    ∃ rc', run h.rcHandlePacket rc tr = some rc' ∧ rc'.All I :=
  run_total tr (fun p _ _ hall => hk.packet hall p) hall

/-- A flow alone runs to its end as well. -/
theorem Handler.Keeps.run_flow {h : Handler} {I : RcFlowbuf → Prop} (hk : h.Keeps I)
    (tr : List Packet) (st : FlowState) (hst : ∀ f, st.buf = some f → I f) :
    ∃ st', run h.flowStep st tr = some st' ∧ ∀ f, st'.buf = some f → I f := by
  refine run_total tr (fun p _ st hst => ?_) hst
  have hbuf : I (st.buf.getD (h.fresh p)) := by
    rcases hb : st.buf with _ | f
    · exact hk.fresh p
    · exact hst f hb
  obtain ⟨f', e, hh, hf'⟩ := hk.step _ p hbuf
  refine ⟨_, flowStep_of_handle h hh, fun f hf => ?_⟩
  cases hf
  exact hf'

/-- The invariant holds of all flows that can be reached. -/
theorem Handler.Keeps.of_run {h : Handler} {I : RcFlowbuf → Prop} (hk : h.Keeps I)
    {tr : List Packet} {rc : Rc} (hr : run h.rcHandlePacket Rc.init tr = some rc) : rc.All I :=
  run_inv (fun _ p hall => hk.packet hall p) (all_init I) hr

end DynBandwidth.Reorder.Flows
