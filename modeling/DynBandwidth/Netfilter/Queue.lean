import DynBandwidth.Lib.BucketOps
import DynBandwidth.Lib.Runs
import DynBandwidth.Netfilter.Stage

/-! # The flow table and the timers of `nfqueue.c`

The state `nfq`, the resequencing stage of `nfq_cb` with its lookup of the flow buffer, and the
timer of a flow, which destroys the buffer when the flow was idle. A run is a list of events: a
packet that enters the stage, or a timer that fires, each with the time `ev_now` of the event loop.
A timer that is not pending does not fire.

The stage changes the flow of its packet as `resequence` does and no other flow (`stage_spec`). A
timer that fires is set again or destroys its flow, with an accepting verdict for each packet held
there (`fire_spec`). An invariant of buffers that both keep (`Keeps`) holds of all flows in every
run. -/

namespace DynBandwidth.Netfilter.Queue

open DynBandwidth.Lib.Buckets DynBandwidth.Lib.RbTree DynBandwidth.Lib.Runs
open DynBandwidth.Reorder.Header DynBandwidth.Netfilter.Stage

/-- The state `nfq`. The list `calls` is not in the program: it records the calls of
`nfq_set_verdict`. -/
structure Nfq where
  queue : QHandle
  reorderBuf : Table U16 U16 NfqFlowbuf
  calls : List Call

/-- Static storage is zero. -/
def Nfq.init : Nfq := ⟨none, empty, []⟩

/-- A packet that enters the stage: the time, the queue that the callback is given, the id of the
packet and its headers. -/
structure Arrival where
  now : ℚ
  queue : QHandle
  id : U32
  pkt : Packet

/-- The flow buffer of a pair of ports, if there is one. -/
def Nfq.flow (nfq : Nfq) (s d : U16) : Option NfqFlowbuf := flowAt nfq.reorderBuf s d

/-! ### The functions of the file -/

/-- `empty_and_destroy_buf`, on the buffer at the address `fbuf`. The memory is not freed. -/
def emptyAndDestroyBuf (now : ℚ) (queue : QHandle) (fbuf : ℕ) (nfq : Nfq) : Option Nfq := do
  let c ← nfq.reorderBuf.cells[fbuf]?
  let r := flush now queue c.val.held.length c.val
  let t ← setVal nfq.reorderBuf fbuf r.1
  let t ← unlink t fbuf
  some { nfq with reorderBuf := t, calls := nfq.calls ++ r.2 }

/-- `timer_cb`, for the timer of the buffer at the address `fbuf`. -/
def timerCb (now : ℚ) (fbuf : ℕ) (nfq : Nfq) : Option Nfq := do
  let c ← nfq.reorderBuf.cells[fbuf]?
  let after := c.val.lastActivity - now + c.val.timeout
  if after < 0 then emptyAndDestroyBuf now nfq.queue fbuf nfq
  else
    let t ← setVal nfq.reorderBuf fbuf { c.val with timer := some (now + after) }
    some { nfq with reorderBuf := t }

/-- A new flow buffer, before its timer is set. -/
def newFlowbuf (now : ℚ) (seq : U32) : NfqFlowbuf := ⟨0, seq, .nil, 0, now, none⟩

/-- **The resequencing stage of `nfq_cb`**: find or create the flow buffer, start the timer of a new
one, and resequence the packet there. -/
def stage (a : Arrival) (nfq : Nfq) : Option Nfq := do
  let (t, fbuf) ←
    lookupOrCreate nfq.reorderBuf a.pkt.sport a.pkt.dport (newFlowbuf a.now a.pkt.seq)
  let nfq' ←
    if fbuf = nfq.reorderBuf.cells.length then timerCb a.now fbuf { nfq with reorderBuf := t }
    else some { nfq with reorderBuf := t }
  let c ← nfq'.reorderBuf.cells[fbuf]?
  let (buf, calls) ← resequence a.now a.queue c.val a.id a.pkt
  let t ← setVal nfq'.reorderBuf fbuf buf
  some { nfq' with reorderBuf := t, calls := nfq'.calls ++ calls }

/-- The event loop calls `timer_cb` for a pending timer, which is one-shot. -/
def fire (now : ℚ) (fbuf : ℕ) (nfq : Nfq) : Option Nfq :=
  match nfq.reorderBuf.cells[fbuf]? with
  | none => some nfq
  | some c =>
    if c.val.timer.isSome then do
      let t ← setVal nfq.reorderBuf fbuf { c.val with timer := none }
      timerCb now fbuf { nfq with reorderBuf := t }
    else some nfq

inductive Event
  | packet (a : Arrival)
  | timer (now : ℚ) (fbuf : ℕ)

def step (nfq : Nfq) : Event → Option Nfq
  | .packet a => stage a nfq
  | .timer now fbuf => fire now fbuf nfq

/-! ### Well-formed states -/

/-- The links are sound, and only listed buffers have a pending timer. -/
def Nfq.WF (nfq : Nfq) : Prop :=
  ∃ L, Linked nfq.reorderBuf L ∧ Listed nfq.reorderBuf L fun f => f.timer.isSome

theorem wf_init : Nfq.init.WF := ⟨fun _ => [], linked_empty, listed_empty _ _⟩

@[simp] theorem flow_init (s d : U16) : Nfq.init.flow s d = none := flowAt_empty s d

/-- A new flow buffer with the timer that `timer_cb` starts. -/
def startFlowbuf (now : ℚ) (seq : U32) : NfqFlowbuf := { newFlowbuf now seq with timer := some now }

theorem timerCb_start {nfq : Nfq} {now : ℚ} {fbuf : ℕ} {c : Cell U16 U16 NfqFlowbuf}
    (hc : nfq.reorderBuf.cells[fbuf]? = some c)
    (h : ¬ c.val.lastActivity - now + c.val.timeout < 0) {t : Table U16 U16 NfqFlowbuf}
    (e : setVal nfq.reorderBuf fbuf
      { c.val with timer := some (now + (c.val.lastActivity - now + c.val.timeout)) } = some t) :
    timerCb now fbuf nfq = some { nfq with reorderBuf := t } := by
  unfold timerCb
  rw [hc]
  show (if _ then _ else _) = _
  rw [if_neg h, e]
  rfl

theorem timerCb_destroy {nfq : Nfq} {now : ℚ} {fbuf : ℕ} {c : Cell U16 U16 NfqFlowbuf}
    (hc : nfq.reorderBuf.cells[fbuf]? = some c)
    (h : c.val.lastActivity - now + c.val.timeout < 0) :
    timerCb now fbuf nfq = emptyAndDestroyBuf now nfq.queue fbuf nfq := by
  unfold timerCb
  rw [hc]
  exact if_pos h

/-! ### A packet -/

/-- **The effect of a packet, by addresses**: the buffer of its flow, which is the listed one or a
new one at the end of the list, is changed by `resequence`; every other buffer is as before. -/
theorem stage_at {nfq : Nfq} {L : U16 → List ℕ} (hL : Linked nfq.reorderBuf L)
    (hlisted : Listed nfq.reorderBuf L fun f => f.timer.isSome) {a : Arrival} {f : NfqFlowbuf}
    {calls : List Call}
    (hr : resequence a.now a.queue ((nfq.flow a.pkt.sport a.pkt.dport).getD
      (startFlowbuf a.now a.pkt.seq)) a.id a.pkt = some (f, calls)) :
    ∃ nfq' L' fbuf, stage a nfq = some nfq' ∧ Linked nfq'.reorderBuf L' ∧
      (Listed nfq'.reorderBuf L' fun f => f.timer.isSome) ∧ fbuf ∈ L' a.pkt.sport ∧
      HasCell nfq'.reorderBuf fbuf a.pkt.sport a.pkt.dport f ∧
      (∀ s d, ¬ (s = a.pkt.sport ∧ d = a.pkt.dport) → nfq'.flow s d = nfq.flow s d) ∧
      nfq'.calls = nfq.calls ++ calls ∧ nfq'.queue = nfq.queue ∧
      ((L' = L ∧ (∃ f0, nfq.flow a.pkt.sport a.pkt.dport = some f0 ∧
          HasCell nfq.reorderBuf fbuf a.pkt.sport a.pkt.dport f0) ∧
          nfq'.reorderBuf.cells.length = nfq.reorderBuf.cells.length ∧
          ∀ q ≠ fbuf, nfq'.reorderBuf.cells[q]? = nfq.reorderBuf.cells[q]?) ∨
        (nfq.flow a.pkt.sport a.pkt.dport = none ∧ fbuf = nfq.reorderBuf.cells.length ∧
          L' = Function.update L a.pkt.sport (L a.pkt.sport ++ [fbuf]) ∧
          nfq'.reorderBuf.cells.length = nfq.reorderBuf.cells.length + 1 ∧
          ∀ q < fbuf, SameData nfq.reorderBuf.cells nfq'.reorderBuf.cells q)) := by
  obtain ⟨now, queue, id, p⟩ := a
  dsimp only at hr ⊢
  obtain ⟨t, fbuf, L1, c, e, hL1, hp, hc, hck, hval, hsame, hcase⟩ :=
    lookupOrCreate_flow hL p.sport p.dport (newFlowbuf now p.seq)
  have hk : keyOf t.cells fbuf = some p.dport := by simp [keyOf, hc, hck]
  have hcb : c.bucket = p.sport := by
    obtain ⟨c', hc', hb⟩ := hL1.cell hp
    rw [hc] at hc'
    cases hc'
    exact hb
  rcases hcase with ⟨hflow, rfl, rfl⟩ | ⟨hflow, hlen, rfl, hlen1, hdata⟩
  · rw [Nfq.flow, hflow, Option.getD_some] at hr
    obtain ⟨t2, e2, hL2, hat, hother⟩ := setVal_spec hL hp hk f
    obtain ⟨hlen2, hcells2⟩ := setVal_cells e2
    have hne : fbuf ≠ nfq.reorderBuf.cells.length := (hL.lt hp).ne
    refine ⟨{ nfq with reorderBuf := t2, calls := nfq.calls ++ calls }, L1, fbuf, ?_, hL2,
      hlisted.setVal hL hp e2, hp, ⟨_, setVal_get hc e2, hcb, hck, rfl⟩, hother, rfl, rfl,
      Or.inl ⟨rfl, ⟨c.val, hflow, c, hc, hcb, hck, rfl⟩, hlen2, hcells2⟩⟩
    simp [stage, e, hne, hc, hr, e2]
  · rw [Nfq.flow, hflow, Option.getD_none] at hr
    rw [hflow, Option.getD_none] at hval
    have hafter : ¬ c.val.lastActivity - now + c.val.timeout < 0 := by
      rw [hval]; simp [newFlowbuf]
    have hstart : ({ c.val with timer := some (now + (c.val.lastActivity - now + c.val.timeout)) } :
        NfqFlowbuf) = startFlowbuf now p.seq := by
      rw [hval]; simp [newFlowbuf, startFlowbuf]
    obtain ⟨t2, e2, hL2, hat2, hother2⟩ := setVal_spec hL1 hp hk (startFlowbuf now p.seq)
    have hc2 := setVal_get hc e2
    have htimer : timerCb now fbuf { nfq with reorderBuf := t } =
        some { nfq with reorderBuf := t2 } := timerCb_start hc hafter (by rw [hstart]; exact e2)
    obtain ⟨t3, e3, hL3, hat3, hother3⟩ := setVal_spec hL2 hp
      (show keyOf t2.cells fbuf = some p.dport by simp [keyOf, hc2, hck]) f
    have hlisted1 : Listed t (Function.update L p.sport (L p.sport ++ [fbuf])) fun f =>
        f.timer.isSome := by
      rw [hlen] at hL1 ⊢
      exact hlisted.create hL1 hlen1 hdata
    obtain ⟨hlen2, hcells2⟩ := setVal_cells e2
    obtain ⟨hlen3, hcells3⟩ := setVal_cells e3
    refine ⟨{ nfq with reorderBuf := t3, calls := nfq.calls ++ calls }, _, fbuf, ?_, hL3,
      (hlisted1.setVal hL1 hp e2).setVal hL2 hp e3, hp, ⟨_, setVal_get hc2 e3, hcb, hck, rfl⟩,
      fun s d hne => ?_, rfl, rfl, Or.inr ⟨hflow, hlen, rfl, ?_, fun q hq => ?_⟩⟩
    · simp only [stage, e, Option.bind_eq_bind, Option.bind_some, if_pos hlen, htimer, hc2, hr, e3]
    · exact (hother3 s d hne).trans ((hother2 s d hne).trans (hsame s d hne))
    · exact hlen3.trans (hlen2.trans hlen1)
    · refine (hdata q (hlen ▸ hq)).trans (sameData_of_eq ?_)
      exact (hcells3 q hq.ne).trans (hcells2 q hq.ne)

/-- **The effect of a packet**: its flow is changed by `resequence`, every other flow is as before.
-/
theorem stage_spec {nfq : Nfq} (hwf : nfq.WF) {a : Arrival} {f : NfqFlowbuf} {calls : List Call}
    (hr : resequence a.now a.queue ((nfq.flow a.pkt.sport a.pkt.dport).getD
      (startFlowbuf a.now a.pkt.seq)) a.id a.pkt = some (f, calls)) :
    ∃ nfq', stage a nfq = some nfq' ∧ nfq'.WF ∧ nfq'.flow a.pkt.sport a.pkt.dport = some f ∧
      (∀ s d, ¬ (s = a.pkt.sport ∧ d = a.pkt.dport) → nfq'.flow s d = nfq.flow s d) ∧
      nfq'.calls = nfq.calls ++ calls ∧ nfq'.queue = nfq.queue := by
  obtain ⟨L, hL, hlisted⟩ := hwf
  obtain ⟨nfq', L', fbuf, e, hL', hlisted', hp, ⟨c, hc, -, hk, hv⟩, hother, hcalls, hqueue, -⟩ :=
    stage_at hL hlisted hr
  exact ⟨nfq', e, ⟨L', hL', hlisted'⟩, (flowAt_eq_some hL').mpr ⟨fbuf, hp, c, hc, hk, hv⟩, hother,
    hcalls, hqueue⟩

/-! ### One flow alone -/

/-- A flow by itself: its buffer, if it has one, and the calls its packets have made. -/
structure FlowState where
  buf : Option NfqFlowbuf
  calls : List Call

/-- A packet of the flow. -/
def flowStep (st : FlowState) (a : Arrival) : Option FlowState := do
  let (f, calls) ←
    resequence a.now a.queue (st.buf.getD (startFlowbuf a.now a.pkt.seq)) a.id a.pkt
  some ⟨some f, st.calls ++ calls⟩

theorem flowStep_of_resequence {st : FlowState} {a : Arrival} {f : NfqFlowbuf} {calls : List Call}
    (h : resequence a.now a.queue (st.buf.getD (startFlowbuf a.now a.pkt.seq)) a.id a.pkt =
      some (f, calls)) : flowStep st a = some ⟨some f, st.calls ++ calls⟩ := by
  simp [flowStep, h]

theorem flowStep_buf {f f' : NfqFlowbuf} {a : Arrival} {calls : List Call}
    (h : resequence a.now a.queue f a.id a.pkt = some (f', calls)) (l : List Call) :
    flowStep ⟨some f, l⟩ a = some ⟨some f', l ++ calls⟩ :=
  @flowStep_of_resequence ⟨some f, l⟩ a f' calls h

theorem flowStep_some {st st' : FlowState} {a : Arrival} (h : flowStep st a = some st') :
    ∃ f calls, resequence a.now a.queue (st.buf.getD (startFlowbuf a.now a.pkt.seq)) a.id a.pkt =
      some (f, calls) ∧ st' = ⟨some f, st.calls ++ calls⟩ := by
  obtain ⟨⟨f, calls⟩, h1, h2⟩ := Option.bind_eq_some_iff.mp h
  exact ⟨f, calls, h1, by simpa using h2.symm⟩

/-- **Packets of one flow run as the flow alone does.** -/
theorem run_single {s d : U16} : ∀ {tr : List Arrival} {nfq : Nfq} {st st' : FlowState},
    nfq.WF → (∀ a ∈ tr, a.pkt.sport = s ∧ a.pkt.dport = d) → nfq.flow s d = st.buf →
    run flowStep st tr = some st' →
    ∃ nfq', run step nfq (tr.map Event.packet) = some nfq' ∧ nfq'.WF ∧ nfq'.flow s d = st'.buf ∧
      ∃ l, nfq'.calls = nfq.calls ++ l ∧ st'.calls = st.calls ++ l
  | [], nfq, st, st', hwf, _, hbuf, hr => by
    simp only [run_nil, Option.some.injEq] at hr
    subst hr
    exact ⟨nfq, rfl, hwf, hbuf, [], by simp, by simp⟩
  | a :: tr, nfq, st, st', hwf, htr, hbuf, hr => by
    obtain ⟨st1, hs1, hr1⟩ := run_cons_some hr
    obtain ⟨f, calls, hh, rfl⟩ := flowStep_some hs1
    obtain ⟨rfl, rfl⟩ := htr a (by simp)
    rw [← hbuf] at hh
    obtain ⟨nfq1, e1, hwf1, hat, -, hcalls, -⟩ := stage_spec hwf hh
    obtain ⟨nfq', hr', hwf', hbuf', l, hl1, hl2⟩ :=
      run_single hwf1 (fun b hb => htr b (by simp [hb])) hat hr1
    exact ⟨nfq', run_of_step e1 hr', hwf', hbuf', calls ++ l,
      by rw [hl1, hcalls, List.append_assoc], by rw [hl2, List.append_assoc]⟩

/-! ### A timer -/

/-- `empty_and_destroy_buf` accepts the packets of a listed buffer and takes it out of its list. -/
theorem emptyAndDestroyBuf_at (nfq : Nfq) {L : U16 → List ℕ} (hL : Linked nfq.reorderBuf L)
    (hlisted : Listed nfq.reorderBuf L fun f => f.timer.isSome) {b : U16} {fbuf : ℕ}
    (hp : fbuf ∈ L b) {c : Cell U16 U16 NfqFlowbuf} (hc : nfq.reorderBuf.cells[fbuf]? = some c)
    (htimer : c.val.timer = none) (now : ℚ) (queue : QHandle) :
    ∃ nfq', emptyAndDestroyBuf now queue fbuf nfq = some nfq' ∧
      Linked nfq'.reorderBuf (Function.update L b ((L b).erase fbuf)) ∧
      (Listed nfq'.reorderBuf (Function.update L b ((L b).erase fbuf)) fun f => f.timer.isSome) ∧
      nfq'.queue = nfq.queue ∧ nfq'.calls = nfq.calls ++ c.val.held.map (accepted queue) ∧
      nfq'.flow b c.key = none ∧
      (∀ s d, ¬ (s = b ∧ d = c.key) → nfq'.flow s d = nfq.flow s d) ∧
      nfq'.reorderBuf.cells.length = nfq.reorderBuf.cells.length ∧
      ∀ q ≠ fbuf, SameData nfq.reorderBuf.cells nfq'.reorderBuf.cells q := by
  obtain ⟨h1, -, h3⟩ := flush_spec now queue c.val.held.length c.val le_rfl
  obtain ⟨t1, e1, hL1, -, hother1⟩ := setVal_spec hL hp (show keyOf _ fbuf = some c.key by
    simp [keyOf, hc]) (flush now queue c.val.held.length c.val).1
  obtain ⟨hlen1, hcells1⟩ := setVal_cells e1
  have hc1 := setVal_get hc e1
  obtain ⟨t2, e2, hL2, hnone, hother2, hdata, hlen⟩ := unlink_flow hL1 hp
    (show keyOf t1.cells fbuf = some c.key by simp [keyOf, hc1])
  have hlisted2 := (hlisted.setVal hL hp e1).unlink (b := b) (p := fbuf) hdata hlen fun d hd => by
    rw [hc1, Option.some.injEq] at hd
    rw [← hd]
    show ¬ (flush now queue c.val.held.length c.val).1.timer.isSome = true
    rw [h3, htimer]
    simp
  refine ⟨⟨nfq.queue, t2, nfq.calls ++ c.val.held.map (accepted queue)⟩, ?_, hL2, hlisted2, rfl,
    rfl, hnone, fun s d hne => (hother2 s d hne).trans (hother1 s d hne), hlen.trans hlen1,
    fun q hq => (sameData_of_eq (hcells1 q hq)).trans (hdata q)⟩
  simp only [emptyAndDestroyBuf, hc, Option.bind_eq_bind, Option.bind_some, e1, e2, h1]

theorem fire_pending {nfq : Nfq} {fbuf : ℕ} {c : Cell U16 U16 NfqFlowbuf}
    (hc : nfq.reorderBuf.cells[fbuf]? = some c) (htimer : c.val.timer.isSome = true)
    {t : Table U16 U16 NfqFlowbuf}
    (e : setVal nfq.reorderBuf fbuf { c.val with timer := none } = some t) (now : ℚ) :
    fire now fbuf nfq = timerCb now fbuf { nfq with reorderBuf := t } := by
  simp only [fire, hc, if_pos htimer, e, Option.bind_eq_bind, Option.bind_some]

/-- `after < 0.` in `timer_cb`. -/
def TimedOut (now : ℚ) (f : NfqFlowbuf) : Prop := f.lastActivity - now + f.timeout < 0

/-- **The effect of a timer, by addresses**: nothing if it is not pending. Otherwise it is the timer
of a listed buffer, which is set again or, if it has timed out, destroyed with an accepting verdict
for each held packet. No other buffer changes, links apart. -/
theorem fire_at {nfq : Nfq} {L : U16 → List ℕ} (hL : Linked nfq.reorderBuf L)
    (hlisted : Listed nfq.reorderBuf L fun f => f.timer.isSome) (now : ℚ) (fbuf : ℕ) :
    ∃ nfq' L', fire now fbuf nfq = some nfq' ∧ Linked nfq'.reorderBuf L' ∧
      (Listed nfq'.reorderBuf L' fun f => f.timer.isSome) ∧ nfq'.queue = nfq.queue ∧
      nfq'.reorderBuf.cells.length = nfq.reorderBuf.cells.length ∧
      ((nfq' = nfq ∧ L' = L ∧ ∀ c, nfq.reorderBuf.cells[fbuf]? = some c → c.val.timer = none) ∨
        ∃ c, nfq.reorderBuf.cells[fbuf]? = some c ∧ c.val.timer.isSome = true ∧
          fbuf ∈ L c.bucket ∧ nfq.flow c.bucket c.key = some c.val ∧
          (∀ s d, ¬ (s = c.bucket ∧ d = c.key) → nfq'.flow s d = nfq.flow s d) ∧
          (∀ q ≠ fbuf, SameData nfq.reorderBuf.cells nfq'.reorderBuf.cells q) ∧
          ((¬ TimedOut now c.val ∧ L' = L ∧ nfq'.calls = nfq.calls ∧ nfq'.flow c.bucket c.key =
              some { c.val with
                timer := some (now + (c.val.lastActivity - now + c.val.timeout)) }) ∨
            (TimedOut now c.val ∧
              L' = Function.update L c.bucket ((L c.bucket).erase fbuf) ∧
              nfq'.calls = nfq.calls ++ c.val.held.map (accepted nfq.queue) ∧
              nfq'.flow c.bucket c.key = none))) := by
  rcases hc : nfq.reorderBuf.cells[fbuf]? with _ | c
  · exact ⟨nfq, L, by simp [fire, hc], hL, hlisted, rfl, rfl, Or.inl ⟨rfl, rfl, by simp⟩⟩
  by_cases htimer : c.val.timer.isSome = true
  swap
  · refine ⟨nfq, L, by simp [fire, hc, htimer], hL, hlisted, rfl, rfl, Or.inl ⟨rfl, rfl, ?_⟩⟩
    rintro c' hc'
    cases hc'
    simpa using htimer
  -- a pending timer belongs to a listed buffer
  have hp := hlisted fbuf c hc htimer
  have hflow : nfq.flow c.bucket c.key = some c.val :=
    (flowAt_eq_some hL).mpr ⟨fbuf, hp, c, hc, rfl, rfl⟩
  obtain ⟨t1, e1, hL1, -, hother1⟩ := setVal_spec hL hp (show keyOf _ fbuf = some c.key by
    simp [keyOf, hc]) { c.val with timer := none }
  obtain ⟨hlen1, hcells1⟩ := setVal_cells e1
  have hc1 := setVal_get hc e1
  have hlisted1 := hlisted.setVal hL hp e1
  rw [fire_pending hc htimer e1]
  by_cases hafter : TimedOut now c.val
  · rw [timerCb_destroy (c := { c with val := { c.val with timer := none } }) hc1 hafter]
    obtain ⟨nfq', e2, hL2, hlisted2, hqueue, hcalls, hnone, hother2, hlen2, hdata2⟩ :=
      emptyAndDestroyBuf_at { nfq with reorderBuf := t1 } hL1 hlisted1 hp hc1 rfl now nfq.queue
    exact ⟨nfq', _, e2, hL2, hlisted2, hqueue, hlen2.trans hlen1, Or.inr ⟨c, rfl, htimer, hp, hflow,
      fun s' d' hne => (hother2 s' d' hne).trans (hother1 s' d' hne),
      fun q hq => (sameData_of_eq (hcells1 q hq)).trans (hdata2 q hq),
      Or.inr ⟨hafter, rfl, hcalls, hnone⟩⟩⟩
  · obtain ⟨t2, e2, hL2, hat2, hother2⟩ := setVal_spec hL1 hp (show keyOf t1.cells fbuf = some c.key
      by simp [keyOf, hc1])
      { c.val with timer := some (now + (c.val.lastActivity - now + c.val.timeout)) }
    obtain ⟨hlen2, hcells2⟩ := setVal_cells e2
    exact ⟨{ nfq with reorderBuf := t2 }, L, timerCb_start
        (c := { c with val := { c.val with timer := none } }) hc1 hafter e2,
      hL2, hlisted1.setVal hL1 hp e2, rfl, hlen2.trans hlen1, Or.inr ⟨c, rfl, htimer, hp, hflow,
        fun s' d' hne => (hother2 s' d' hne).trans (hother1 s' d' hne),
        fun q hq => sameData_of_eq ((hcells2 q hq).trans (hcells1 q hq)),
        Or.inl ⟨hafter, rfl, rfl, hat2⟩⟩⟩

/-- What is asked of the buffer of a pending timer is asked of the buffer at its address. -/
theorem forall_pending_iff {nfq : Nfq} {fbuf : ℕ} {c : Cell U16 U16 NfqFlowbuf}
    (hc : nfq.reorderBuf.cells[fbuf]? = some c) (htimer : c.val.timer.isSome = true)
    {P : NfqFlowbuf → Prop} : (∀ c', nfq.reorderBuf.cells[fbuf]? = some c' →
      c'.val.timer.isSome = true → P c'.val) ↔ P c.val := by
  refine ⟨fun h => h c hc htimer, fun h c' hc' _ => ?_⟩
  rw [hc] at hc'
  cases hc'
  exact h

/-- **The effect of a timer**: nothing if it is not pending. Otherwise it is the timer of a flow,
which is set again or, if the flow was idle, destroyed with an accepting verdict for each held
packet. -/
theorem fire_spec {nfq : Nfq} (hwf : nfq.WF) (now : ℚ) (fbuf : ℕ) :
    ∃ nfq', fire now fbuf nfq = some nfq' ∧ nfq'.WF ∧ nfq'.queue = nfq.queue ∧
      (nfq' = nfq ∨ ∃ s d f, nfq.flow s d = some f ∧
        (∀ s' d', ¬ (s' = s ∧ d' = d) → nfq'.flow s' d' = nfq.flow s' d') ∧
        ((¬ f.lastActivity - now + f.timeout < 0 ∧ nfq'.calls = nfq.calls ∧ nfq'.flow s d =
            some { f with timer := some (now + (f.lastActivity - now + f.timeout)) }) ∨
          (f.lastActivity - now + f.timeout < 0 ∧ nfq'.flow s d = none ∧
            nfq'.calls = nfq.calls ++ f.held.map (accepted nfq.queue)))) := by
  obtain ⟨L, hL, hlisted⟩ := hwf
  obtain ⟨nfq', L', e, hL', hlisted', hqueue, -, hcase⟩ := fire_at hL hlisted now fbuf
  refine ⟨nfq', e, ⟨L', hL', hlisted'⟩, hqueue, ?_⟩
  rcases hcase with ⟨hsame, -⟩ | ⟨c, -, -, -, hflow, hother, -, hcase⟩
  · exact Or.inl hsame
  · refine Or.inr ⟨c.bucket, c.key, c.val, hflow, hother, ?_⟩
    rcases hcase with ⟨hafter, -, hcalls, hat⟩ | ⟨hafter, -, hcalls, hat⟩
    · exact Or.inl ⟨hafter, hcalls, hat⟩
    · exact Or.inr ⟨hafter, hat, hcalls⟩

/-! ### Invariants of the flows -/

/-- All flows of a sound table have the invariant. -/
def Nfq.All (I : NfqFlowbuf → Prop) (nfq : Nfq) : Prop :=
  nfq.WF ∧ ∀ s d f, nfq.flow s d = some f → I f

theorem all_init (I : NfqFlowbuf → Prop) : Nfq.init.All I := ⟨wf_init, by simp⟩

theorem Nfq.All.getD {I : NfqFlowbuf → Prop} {nfq : Nfq} (hall : nfq.All I) {f : NfqFlowbuf}
    (hf : I f) (s d : U16) : I ((nfq.flow s d).getD f) := by
  rcases ho : nfq.flow s d with _ | f'
  · exact hf
  · exact hall.2 s d f' ho

/-- An invariant of the flow that an event changes is one of all flows. -/
theorem Nfq.All.step {I : NfqFlowbuf → Prop} {nfq nfq' : Nfq} (hall : nfq.All I) {s d : U16}
    (hwf : nfq'.WF) (hat : ∀ f, nfq'.flow s d = some f → I f)
    (hother : ∀ s' d', ¬ (s' = s ∧ d' = d) → nfq'.flow s' d' = nfq.flow s' d') : nfq'.All I := by
  refine ⟨hwf, fun s' d' f' hf' => ?_⟩
  by_cases hk : s' = s ∧ d' = d
  · obtain ⟨rfl, rfl⟩ := hk
    exact hat f' hf'
  · rw [hother s' d' hk] at hf'
    exact hall.2 s' d' f' hf'

/-- The same, for a packet. -/
theorem Nfq.All.set {I : NfqFlowbuf → Prop} {nfq nfq' : Nfq} (hall : nfq.All I) {s d : U16}
    {f : NfqFlowbuf} (hwf : nfq'.WF) (hat : nfq'.flow s d = some f) (hf : I f)
    (hother : ∀ s' d', ¬ (s' = s ∧ d' = d) → nfq'.flow s' d' = nfq.flow s' d') : nfq'.All I := by
  refine hall.step hwf (fun g hg => ?_) hother
  rw [hat] at hg
  cases hg
  exact hf

/-- **A timer keeps every invariant that allows to set the timer again.** -/
theorem Nfq.All.fire {I : NfqFlowbuf → Prop} {nfq : Nfq} (hall : nfq.All I)
    (hI : ∀ f t, I f → I { f with timer := some t }) (now : ℚ) (fbuf : ℕ) :
    ∃ nfq', Queue.fire now fbuf nfq = some nfq' ∧ nfq'.All I := by
  obtain ⟨nfq', e, hwf, -, rfl | ⟨s, d, f, hf, hother, hcase⟩⟩ := fire_spec hall.1 now fbuf
  · exact ⟨nfq', e, hall⟩
  · refine ⟨nfq', e, hall.step hwf (fun g hg => ?_) hother⟩
    rcases hcase with ⟨-, -, hat⟩ | ⟨-, hat, -⟩
    · rw [hat] at hg
      cases hg
      exact hI f _ (hall.2 s d f hf)
    · rw [hat] at hg
      cases hg

/-- The stage and the timers keep an invariant of flow buffers, and the stage does not fault on
buffers that have it. -/
structure Keeps (I : NfqFlowbuf → Prop) : Prop where
  start : ∀ now seq, I (startFlowbuf now seq)
  resequence : ∀ f, I f → ∀ now queue id p, ∃ f' calls,
    resequence now queue f id p = some (f', calls) ∧ I f'
  timer : ∀ f t, I f → I { f with timer := some t }

section Keeps
variable {I : NfqFlowbuf → Prop} (hk : Keeps I) {nfq : Nfq} (hall : nfq.All I)
include hk hall

/-- What a packet does to the buffer it is handled on. -/
theorem Keeps.handles (a : Arrival) : ∃ f calls,
    Stage.resequence a.now a.queue ((nfq.flow a.pkt.sport a.pkt.dport).getD
      (startFlowbuf a.now a.pkt.seq)) a.id a.pkt = some (f, calls) ∧ I f :=
  hk.resequence _ (hall.getD (hk.start a.now a.pkt.seq) a.pkt.sport a.pkt.dport) a.now a.queue a.id
    a.pkt

/-- **No packet faults**, and what it does is what `resequence` does to its flow. -/
theorem Keeps.packet (a : Arrival) : ∃ nfq' f calls,
    Stage.resequence a.now a.queue ((nfq.flow a.pkt.sport a.pkt.dport).getD
      (startFlowbuf a.now a.pkt.seq)) a.id a.pkt = some (f, calls) ∧
    stage a nfq = some nfq' ∧ nfq'.All I ∧ nfq'.flow a.pkt.sport a.pkt.dport = some f ∧
    (∀ s d, ¬ (s = a.pkt.sport ∧ d = a.pkt.dport) → nfq'.flow s d = nfq.flow s d) ∧
    nfq'.calls = nfq.calls ++ calls ∧ nfq'.queue = nfq.queue := by
  obtain ⟨f, calls, hr, hf⟩ := hk.handles hall a
  obtain ⟨nfq', e, hwf, hat, hother, hcalls, hqueue⟩ := stage_spec hall.1 hr
  exact ⟨nfq', f, calls, hr, e, hall.set hwf hat hf hother, hat, hother, hcalls, hqueue⟩

/-- **No event faults.** -/
theorem Keeps.event (ev : Event) : ∃ nfq', step nfq ev = some nfq' ∧ nfq'.All I := by
  rcases ev with a | ⟨now, fbuf⟩
  · obtain ⟨nfq', -, -, -, e, hall', -⟩ := hk.packet hall a
    exact ⟨nfq', e, hall'⟩
  · exact hall.fire hk.timer now fbuf

end Keeps

/-- Every run ends. -/
theorem Keeps.run_all {I : NfqFlowbuf → Prop} (hk : Keeps I) (evs : List Event) :
    ∃ nfq, run step Nfq.init evs = some nfq ∧ nfq.All I :=
  run_total evs (fun ev _ _ hall => hk.event hall ev) (all_init I)

/-- The invariant holds of all flows that can be reached. -/
theorem Keeps.of_run {I : NfqFlowbuf → Prop} (hk : Keeps I) {evs : List Event} {nfq : Nfq}
    (h : run step Nfq.init evs = some nfq) : nfq.All I :=
  run_inv (fun _ ev hall => hk.event hall ev) (all_init I) h

theorem keeps_sized : Keeps Sized where
  start _ _ := ⟨rfl, Nat.zero_le _⟩
  resequence _ hf := hf.resequence
  timer _ _ hf := hf

/-- Conditions on the steps of one flow hold along the run of its packets. -/
theorem allSteps_single {s d : U16} {P : Nfq → Event → Prop} {Q : FlowState → Arrival → Prop}
    (hPQ : ∀ nfq st a, nfq.flow a.pkt.sport a.pkt.dport = st.buf → Q st a → P nfq (.packet a)) :
    ∀ {tr : List Arrival} {nfq : Nfq} (st : FlowState), nfq.All Sized →
      (∀ a ∈ tr, a.pkt.sport = s ∧ a.pkt.dport = d) → nfq.flow s d = st.buf →
      AllSteps flowStep Q st tr → AllSteps step P nfq (tr.map Event.packet)
  | [], _, _, _, _, _, _ => trivial
  | a :: tr, nfq, st, hall, htr, hbuf, hQ => by
    obtain ⟨rfl, rfl⟩ := htr a (by simp)
    refine ⟨hPQ nfq st a hbuf hQ.1, fun nfq' h => ?_⟩
    obtain ⟨nfq1, f, calls, hr, e, hall1, hat, -⟩ := keeps_sized.packet hall a
    rw [show stage a nfq = some nfq' from h] at e
    cases e
    rw [hbuf] at hr
    exact allSteps_single hPQ _ hall1 (fun b hb => htr b (by simp [hb])) hat
      (hQ.2 _ (flowStep_of_resequence hr))

/-! ### The only flow -/

/-- The flow has a buffer, and no other buffer was ever made. -/
structure Alone (s d : U16) (nfq : Nfq) : Prop where
  sized : nfq.All Sized
  made : ∃ f, nfq.flow s d = some f
  only : nfq.reorderBuf.cells.length = 1

/-- A packet of a known flow makes no buffer, that of a new one makes one. -/
theorem stage_cells {nfq : Nfq} (hall : nfq.All Sized) (a : Arrival) :
    ∃ nfq', stage a nfq = some nfq' ∧ nfq'.All Sized ∧
      (∃ f, nfq'.flow a.pkt.sport a.pkt.dport = some f) ∧
      nfq'.reorderBuf.cells.length = nfq.reorderBuf.cells.length +
        if nfq.flow a.pkt.sport a.pkt.dport = none then 1 else 0 := by
  obtain ⟨f, calls, hr, hf⟩ := keeps_sized.handles hall a
  obtain ⟨L, hL, hlisted⟩ := hall.1
  obtain ⟨nfq', L', fbuf, e, hL', hlisted', hp, ⟨c, hc, -, hk, hv⟩, hother, -, -, hcase⟩ :=
    stage_at hL hlisted hr
  have hat := (flowAt_eq_some hL').mpr ⟨fbuf, hp, c, hc, hk, hv⟩
  refine ⟨nfq', e, hall.set ⟨L', hL', hlisted'⟩ hat hf hother, ⟨f, hat⟩, ?_⟩
  rcases hcase with ⟨-, ⟨f0, hflow, -⟩, hlen, -⟩ | ⟨hflow, -, -, hlen, -⟩
  · rw [hlen, hflow, if_neg (by simp)]
    rfl
  · rw [hlen, if_pos hflow]

theorem alone_run {s d : U16} {a : Arrival} {tr : List Arrival}
    (htr : ∀ b ∈ a :: tr, b.pkt.sport = s ∧ b.pkt.dport = d) :
    ∃ nfq, run step Nfq.init ((a :: tr).map Event.packet) = some nfq ∧ Alone s d nfq := by
  obtain ⟨⟨rfl, rfl⟩, htail⟩ := List.forall_mem_cons.mp htr
  obtain ⟨nfq1, h1, hall, hmade, hcells⟩ := stage_cells (all_init Sized) a
  rw [flow_init, if_pos rfl] at hcells
  have hstep : ∀ ev ∈ tr.map Event.packet, ∀ n, Alone a.pkt.sport a.pkt.dport n →
      ∃ n', step n ev = some n' ∧ Alone a.pkt.sport a.pkt.dport n' := by
    intro ev hev n hn
    obtain ⟨b, hb, rfl⟩ := List.mem_map.mp hev
    obtain ⟨hs, hd⟩ := htail b hb
    obtain ⟨n', e, hn', hmade', hlen⟩ := stage_cells hn.sized b
    obtain ⟨f, hf⟩ := hn.made
    rw [hs, hd] at hmade' hlen
    rw [hf, if_neg (by simp)] at hlen
    exact ⟨n', e, hn', hmade', hlen.trans hn.only⟩
  obtain ⟨nfq, hrun, halone⟩ := run_total _ hstep ⟨hall, hmade, hcells⟩
  exact ⟨nfq, run_of_step h1 hrun, halone⟩

/-- **The buffer of the only flow** is at the address `0`. -/
theorem run_single_cell {s d : U16} {a : Arrival} {tr : List Arrival}
    (htr : ∀ b ∈ a :: tr, b.pkt.sport = s ∧ b.pkt.dport = d) {st : FlowState}
    (hr : run flowStep ⟨none, []⟩ (a :: tr) = some st) :
    ∃ nfq c, run step Nfq.init ((a :: tr).map Event.packet) = some nfq ∧ nfq.All Sized ∧
      nfq.calls = st.calls ∧ nfq.reorderBuf.cells[0]? = some c ∧ st.buf = some c.val := by
  obtain ⟨nfq, hrun, -, hbuf, l, hcalls, hl⟩ := run_single wf_init htr (flow_init s d) hr
  obtain ⟨nfq', hrun', halone⟩ := alone_run htr
  rw [hrun] at hrun'
  cases hrun'
  obtain ⟨f, hf⟩ := halone.made
  obtain ⟨L, hL, -⟩ := halone.sized.1
  obtain ⟨p, hp, c, hc, -, hv⟩ := (flowAt_eq_some hL).mp hf
  obtain rfl : p = 0 := by
    have hlt := hL.lt hp
    rw [halone.only] at hlt
    omega
  exact ⟨nfq, c, hrun, halone.sized, hcalls.trans hl.symm, hc, by rw [← hbuf, hf, hv]⟩

end DynBandwidth.Netfilter.Queue
