import DynBandwidth.Sched.Link
import DynBandwidth.Sched.NetemSafe
import DynBandwidth.Tbf.Modify
import DynBandwidth.Tbf.Rounds

/-! # A device and the requests it gets

From a message to the disciplines of a device: `rtnetlink_rcv_msg` hands it to `tc_modify_qdisc`,
which finds the device and the discipline, and this gets its new options.

A request of the driver reaches the discipline it is for (`rcvMsg_request`), and is accepted: the
token bucket gets its rate (`Works.setRate`) and the emulator its latency (`Works.setLatency`). In
between, packets come and go (`Works.enqueue`, `Works.dequeue`), and the device works as it should
(`Works`). -/

namespace DynBandwidth.Sched.Device

open DynBandwidth.Lib.Bytes DynBandwidth.Lib.Attributes
open DynBandwidth.Tbf.Uapi DynBandwidth.Tbf.Kernel DynBandwidth.Tbf.Talk DynBandwidth.Tbf.Modify
open DynBandwidth.Tbf.Requests (Request)
open DynBandwidth.Tbf.Rounds (SetsRate)
open DynBandwidth.Sched.Qdisc DynBandwidth.Sched.Netem DynBandwidth.Sched.NetemQueue
open DynBandwidth.Sched.NetemRuns (Plain SlotFrom netemDequeue_cases)
open DynBandwidth.Sched.NetemSafe (Safe Sound netemDequeue_returns netemEnqueue_returns_once)
open DynBandwidth.Sched.Child DynBandwidth.Sched.Tbf DynBandwidth.Sched.Link
open DynBandwidth.Reorder.Header (U16 U32 U64)

/-! ### From a message to a discipline -/

/-- The devices, by their indices. -/
abbrev Net := U32 → Option World

/-- `RTM_NEWQDISC`. -/
def rtmNewqdisc : U16 := 36

section Model
variable (e : Link.Env) (now : U64)

/-- The options reach a discipline; its result. -/
def change (w : World) (opt : List Byte) : Place → Option (World × ℤ)
  | .bucket =>
    (step e w (.event (.change now opt))).map fun w' =>
      (w', match tbfChange e.tbf false w.dev.q opt with
        | .ok _ => 0
        | .error err => err)
  | .emulator =>
    (emulator w.dev.q.qdisc).bind fun s =>
      (step e w (.child now opt)).map fun w' =>
        (w', (netemConfigure e.netem now s opt).2.getD 0)

/-- `tc_modify_qdisc` for a device that is there. Disciplines that are created or moved, size tables
and estimators are left out; `none` stands for them, too. -/
def modify (w : World) (flags : U16) (req : TcRequest) : Option (World × Reply) :=
  if (req.tca tcaStab).isSome || (req.tca tcaRate).isSome then none
  else
    match tcModifyQdisc twoQdiscs flags req with
    | .error r => some (w, r)
    | .ok (.change q) =>
      match qdiscChange req with
      | .error r => some (w, r)
      | .ok none => some (w, ⟨0, none⟩)
      | .ok (some opt) => (change e now w opt q).map fun r => (r.1, ⟨r.2, none⟩)
    | .ok _ => none

/-- `rtnetlink_rcv_msg` for messages of this type, with the beginning of `tc_modify_qdisc`. -/
def rtnetlinkRcvMsg (net : Net) (msg : List Byte) : Option (Net × Reply) :=
  if BitVec.ofNat 16 (field msg 4 2) ≠ rtmNewqdisc then none
  else if field msg 0 4 < 17 then some (net, ⟨0, none⟩)
  else
    match nlmsgParse msg with
    | .error err => some (net, ⟨err, none⟩)
    | .ok req =>
      match net req.tcmIfindex with
      | none => some (net, ⟨-enodev, none⟩)
      | some w =>
        (modify e now w (nlmsgFlags msg) req).map fun r =>
          (Function.update net req.tcmIfindex (some r.1), r.2)

end Model

/-- The handle and the parent that a request for a discipline has. -/
def asksHandle : Place → U32
  | .bucket => 0
  | .emulator => 0x00100000

def asksParent : Place → U32
  | .bucket => 0xFFFFFFFF
  | .emulator => 0x00010001

section Request
variable {e : Link.Env} {now : U64}

theorem nlmsgParse_ok {msg : List Byte} {req : TcRequest} (h : nlmsgParse msg = .ok req) :
    36 ≤ field msg 0 4 ∧ req.nlmsgType = BitVec.ofNat 16 (field msg 4 2) := by
  unfold nlmsgParse at h
  split_ifs at h with hlen
  refine ⟨by omega, ?_⟩
  cases htca : nlaParse tcaMax rtmTcaPolicy ((msg.take (field msg 0 4)).drop 36) with
  | error err =>
    rw [htca] at h
    cases h
  | ok tca =>
    rw [htca] at h
    cases h
    rfl

/-- **The decision about a request of the driver.** -/
theorem tcModifyQdisc_place (place : Place) {flags : U16} {req : TcRequest}
    (hcreate : has flags nlmFCreate = false) (hexcl : has flags nlmFExcl = false)
    (hhandle : req.tcmHandle = asksHandle place) (hparent : req.tcmParent = asksParent place)
    (hkind : otherKind twoQdiscs req place = false) :
    tcModifyQdisc twoQdiscs flags req = .ok (.change place) := by
  have hchange : changeParameters twoQdiscs flags req (some place) = .ok (.change place) := by
    rw [changeParameters, hexcl, hkind]
    rfl
  have hunder : ∀ p, modifyUnder twoQdiscs flags req p (some place) = .ok (.change place) := by
    intro p
    cases place with
    | bucket =>
      rw [modifyUnder, hhandle, if_pos (show asksHandle .bucket = 0 from rfl), hcreate]
      exact hchange
    | emulator =>
      rw [modifyUnder, hhandle, if_neg (by decide),
        if_pos (show twoQdiscs.handle .emulator = asksHandle .emulator from rfl)]
      exact hchange
  have hpresent : ∃ p, present twoQdiscs req = .ok (p, some place) := by
    unfold present
    rw [hparent]
    cases place with
    | bucket => exact ⟨none, rfl⟩
    | emulator => exact ⟨some .bucket, rfl⟩
  obtain ⟨p, hp⟩ := hpresent
  have hne : req.tcmParent ≠ 0 := by
    rw [hparent]
    cases place <;> decide
  have hfilter : (some place).filter (fun q => decide (twoQdiscs.handle q ≠ 0)) = some place := by
    cases place <;> rfl
  unfold tcModifyQdisc
  rw [if_neg hne, hp]
  show modifyUnder twoQdiscs flags req p ((some place).filter _) = _
  rw [hfilter]
  exact hunder p

/-- **A request of the driver reaches its discipline.** -/
theorem rcvMsg_request {place : Place} {opt msg : List Byte} {ifindex : U32} {net : Net} {w : World}
    (h : Request place.kind opt ifindex (asksHandle place) (asksParent place) msg)
    (hcreate : has (nlmsgFlags msg) nlmFCreate = false)
    (hexcl : has (nlmsgFlags msg) nlmFExcl = false) (hw : net ifindex = some w) :
    rtnetlinkRcvMsg e now net msg = (change e now w opt place).map fun r =>
      (Function.update net ifindex (some r.1), ⟨r.2, none⟩) := by
  obtain ⟨req, hparse, htype, rfl, hhandle, hparent, ⟨nla, hnla, hkind⟩, hopt, hnone⟩ := h.parse
  obtain ⟨h36, htype'⟩ := nlmsgParse_ok hparse
  have hother : otherKind twoQdiscs req place = false := by
    rw [otherKind, hnla]
    show (!nlaStreq nla place.kind) = false
    rw [hkind]
    rfl
  have hchange : qdiscChange req = .ok (some opt) := by
    rw [qdiscChange, hopt, hnone tcaIngressBlock (by decide) (by decide),
      hnone tcaEgressBlock (by decide) (by decide)]
    rfl
  have hmodify : modify e now w (nlmsgFlags msg) req =
      (change e now w opt place).map fun r => (r.1, ⟨r.2, none⟩) := by
    unfold modify
    rw [hnone tcaStab (by decide) (by decide), hnone tcaRate (by decide) (by decide),
      tcModifyQdisc_place place hcreate hexcl hhandle hparent hother, hchange]
    exact if_neg (by decide)
  unfold rtnetlinkRcvMsg
  rw [if_neg (by rw [← htype', htype]; decide), if_neg (by omega), hparse]
  dsimp only
  rw [hw]
  dsimp only
  rw [hmodify, Option.map_map]
  rfl

/-- New options do not move packets. -/
theorem change_books {w w' : World} {opt : List Byte} {place : Place} {err : ℤ}
    (h : change e now w opt place = some (w', err)) : w'.line = w.line ∧ w'.left = w.left := by
  cases place with
  | bucket =>
    obtain ⟨w1, hs, h1⟩ := Option.map_eq_some_iff.mp h
    obtain ⟨dev, -, rfl⟩ := Option.map_eq_some_iff.mp hs
    cases h1
    exact ⟨rfl, rfl⟩
  | emulator =>
    obtain ⟨s, -, h1⟩ := Option.bind_eq_some_iff.mp h
    cases h1
    exact ⟨rfl, rfl⟩

end Request

/-! ### An emulator that only delays -/

/-- An emulator that does nothing but delay, by some latency. -/
structure Delays (latency : U64) (q : Data) : Prop where
  plain : Plain q
  safe : Safe q
  latency : q.latency = latency

section Delays
variable {e : Netem.Env} {now latency : U64} {s s' : NetemSched}

theorem Delays.of_slotFrom {q q' : Data} (h : Delays latency q) (hs : SlotFrom q q') :
    Delays latency q' := by
  have hsafe := h.safe.of_slotFrom hs
  obtain ⟨draws, slot, rfl⟩ := hs
  have hp := h.plain
  exact ⟨⟨hp.duplicate, hp.corrupt, hp.gap, hp.jitter, hp.rate⟩, hsafe, h.latency⟩

variable (e now) in
/-- **An arrival returns.** -/
theorem Delays.enqueue (h : Delays latency s.data) (skb : Skb) :
    ∃ s' ret, netemEnqueue e now 4 s skb = some (s', ret) ∧ Delays latency s'.data := by
  obtain ⟨s', ret, he, hsafe⟩ : ∃ s' ret, netemEnqueue e now 4 s skb = some (s', ret) ∧
      Safe s'.data := netemEnqueue_returns_once 3 skb s h.safe ⟨h.plain.duplicate, h.plain.corrupt⟩
  obtain ⟨hplain, hlatency⟩ := h.plain.enqueue he
  exact ⟨s', ret, he, hplain, hsafe, hlatency.trans h.latency⟩

variable (e now) in
theorem Delays.dequeue (h : Delays latency s.data) (hl : InLanes s) :
    ∃ s' r, netemDequeue e now s = some (s', r) ∧ Delays latency s'.data := by
  obtain ⟨s', r, hd, -⟩ : ∃ s' r, netemDequeue e now s = some (s', r) ∧ NetemSafe.Safe s'.data :=
    netemDequeue_returns h.safe
  refine ⟨s', r, hd, ?_⟩
  rcases netemDequeue_cases hl hd with ⟨x, q, -, -, rfl⟩ | ⟨-, -, -, rfl⟩ |
    ⟨x, lane, data, -, -, -, hslot, -, -, rfl⟩ | ⟨x, l, data, -, -, hslot, -, -, rfl⟩
  · exact h
  · exact h
  · exact h.of_slotFrom hslot
  · exact h.of_slotFrom (NetemRuns.slotFrom_slotBefore hslot)

variable (e now) in
theorem Delays.peek (h : Delays latency s.data) (hl : InLanes s) :
    ∃ s' r, netemPeekDequeued e now s = some (s', r) ∧ Delays latency s'.data := by
  unfold netemPeekDequeued
  cases s.gsoSkb with
  | some skb => exact ⟨_, _, rfl, h⟩
  | none =>
    obtain ⟨s', r, hd, h'⟩ := h.dequeue e now hl
    rw [hd]
    cases r with
    | none => exact ⟨_, _, rfl, h'⟩
    | some skb => exact ⟨_, _, rfl, h'⟩

variable (e now) in
theorem Delays.dequeuePeeked (h : Delays latency s.data) (hl : InLanes s) :
    ∃ s' r, netemDequeuePeeked e now s = some (s', r) ∧ Delays latency s'.data := by
  unfold netemDequeuePeeked
  cases s.gsoSkb with
  | some skb => exact ⟨_, _, rfl, h⟩
  | none => exact h.dequeue e now hl

/-- **A new latency**, and nothing else. -/
theorem Delays.configure (h : Delays latency s.data) (hzero : e.ticks2ns 0 = 0) (now : U64)
    {qopt : TcNetemQopt} (hgap : qopt.gap = 0) (hdup : qopt.duplicate = 0)
    (hjitter : qopt.jitter = 0) : ∃ data,
      netemConfigure e now s qopt.toBytes = ({ s with data := data }, none) ∧
        Delays (e.ticks2ns qopt.latency) data := by
  refine ⟨_, by rw [netemConfigure, netemChange_toBytes], ?_⟩
  have hj : (e.kernel now).ticks2ns qopt.jitter = 0 := by
    rw [hjitter]
    exact hzero
  refine ⟨⟨hdup, h.plain.corrupt, hgap, ?_, h.plain.rate⟩, ⟨?_, h.safe.slot⟩, rfl⟩
  · show ((e.kernel now).ticks2ns qopt.jitter).setWidth 32 = 0
    rw [hj]
    rfl
  · show Sound (((e.kernel now).ticks2ns qopt.jitter).setWidth 32) s.data.rest.delayDist
    rw [hj]
    cases s.data.rest.delayDist <;> exact Or.inl rfl

end Delays

/-! ### A device that works -/

/-- **A device that works**: its token bucket and its emulator are what they should be, the kernel
runs, and the emulator does nothing but delay by the latency. -/
structure Works (start latency : U64) (w : World) : Prop where
  shape : TbfShape.Inv start w.dev
  sent : TbfShape.OnlySent w.dev.log
  link : OnLink w
  emulator : ∃ s, emulator w.dev.q.qdisc = some s ∧ Delays latency s.data
  small : latency.toNat < 2 ^ 62

section Works
variable {e : Link.Env} {start latency now : U64} {w : World}

theorem qdisc_of_emulator {q : Option Inner} {s : NetemSched} (h : Link.emulator q = some s) :
    q = some (.inl (some s)) := by
  rcases q with _ | (_ | s') | f
  · cases h
  · cases h
  · cases h
    rfl
  · cases h

theorem call_some {α : Type} {f : NetemSched → Option (NetemSched × α)} {stopped : α}
    {s s' : NetemSched} {r : α} (h : f s = some (s', r)) :
    call f stopped (some s) = (some s', r) := by
  rw [call, Option.bind_some, h]

/-- What every step of the link gives, a device that works keeps if its emulator does. -/
theorem Works.of_step (h : Works start latency w) (i : Input) {w' : World} {latency' : U64}
    (hclock : Clocked w i) (hno : NoReset i) (hsteady : Steady w i) (hs : step e w i = some w')
    (hem : ∃ s, Link.emulator w'.dev.q.qdisc = some s ∧ Delays latency' s.data)
    (hsmall : latency'.toNat < 2 ^ 62) : Works start latency' w' :=
  ⟨inv_step h.shape hclock hs, onlySent_step h.sent hno hs, h.link.step hsteady hs, hem, hsmall⟩

theorem works_start (hstart : start.toNat < 2 ^ 62) : Works start 0 (World.start start) where
  shape := TbfShape.inv_start hstart
  sent := by simp [TbfShape.OnlySent, World.start, TbfShape.World.start]
  link := onLink_start start
  emulator := by
    refine ⟨netemZero, rfl, ⟨rfl, rfl, rfl, rfl, rfl⟩, ⟨Or.inl rfl, ?_⟩, rfl⟩
    rintro table ⟨⟩
  small := by decide

/-- **A packet arrives**, or its segments do. -/
theorem Works.enqueue (h : Works start latency w) (hc : w.dev.clock ≤ now)
    (hnow : now.toNat < 2 ^ 62) (skb : Skb) :
    ∃ w', step e w (.event (.enqueue now skb)) = some w' ∧ Works start latency w' ∧
      w'.dev.clock = now ∧ w'.dev.q.rate = w.dev.q.rate := by
  obtain ⟨s, hs, hd⟩ := h.emulator
  have hsmall := h.small
  refine ⟨_, rfl, ?_, rfl, (TbfShape.sameBuckets_enqueue e.tbf now w.dev.q skb).rate⟩
  refine h.of_step (.event (.enqueue now skb)) ⟨hc, hnow⟩ trivial ⟨hc, ?_⟩ rfl ?_ hsmall
  · intro s' hs'
    rw [hs] at hs'
    cases hs'
    refine ⟨hd.plain, ?_⟩
    rw [hd.latency]
    omega
  · show ∃ s', Link.emulator (tbfEnqueue e.tbf now w.dev.q skb).1.qdisc = some s' ∧ _
    refine tbfEnqueue_inner (P := fun q => ∃ s', Link.emulator q = some s' ∧
      Delays latency s'.data) ?_ ⟨s, hs, hd⟩
    rintro q x - ⟨s1, hs1, hd1⟩
    obtain ⟨s', ret, he, hd'⟩ := hd1.enqueue e.netem now x
    refine ⟨s', ?_, hd'⟩
    rw [qdisc_of_emulator hs1]
    show Link.emulator (some (.inl (call _ Xmit.drop (some s1)).1)) = _
    rw [call_some he]
    rfl

/-- **A packet is asked for.** -/
theorem Works.dequeue (h : Works start latency w) (hc : w.dev.clock ≤ now)
    (hnow : now.toNat < 2 ^ 62) :
    ∃ w', step e w (.event (.dequeue now)) = some w' ∧ Works start latency w' ∧
      w'.dev.clock = now ∧ w'.dev.q.rate = w.dev.q.rate := by
  obtain ⟨s, hs, hd⟩ := h.emulator
  have hlanes := (h.link.line s hs).lanes
  obtain ⟨s1, r, hpeek, hd1⟩ := hd.peek e.netem now hlanes
  have hq1 : (qdiscPeek e.tbf.ops now w.dev.q.qdisc).1 = some (.inl (some s1)) := by
    rw [qdisc_of_emulator hs]
    show some (Sum.inl (call _ none (some s)).1) = _
    rw [call_some hpeek]
  have hlanes1 := ((h.link.line s hs).peek hc hpeek).1.lanes
  obtain ⟨s2, r2, htake, hd2⟩ := hd1.dequeuePeeked e.netem now hlanes1
  have hq2 : (qdiscDequeuePeeked e.tbf.ops now (some (.inl (some s1)))).1 =
      some (.inl (some s2)) := by
    show some (Sum.inl (call _ none (some s1)).1) = _
    rw [call_some htake]
  have hcases := tbfDequeue_cases (ops_faithful e) now w.dev.q
  refine ⟨_, rfl, ?_, rfl, ?_⟩
  · refine h.of_step (.event (.dequeue now)) ⟨hc, hnow⟩ trivial ⟨hc, trivial⟩ rfl ?_ h.small
    show ∃ s', Link.emulator (tbfDequeue e.tbf now w.dev.q).1.qdisc = some s' ∧ _
    rcases hcases with ⟨-, he⟩ | ⟨skb, -, -, he⟩ | ⟨skb, -, -, he⟩
    · exact ⟨s1, by rw [he, hq1]; rfl, hd1⟩
    · exact ⟨s2, by rw [he, hq1, hq2]; rfl, hd2⟩
    · exact ⟨s1, by rw [he, hq1]; rfl, hd1⟩
  · show (tbfDequeue e.tbf now w.dev.q).1.rate = w.dev.q.rate
    rcases hcases with ⟨-, he⟩ | ⟨skb, -, -, he⟩ | ⟨skb, -, -, he⟩ <;> rw [he]

/-- **Options reach the token bucket**; the device works on, also if they are refused. -/
theorem Works.retune (h : Works start latency w) (hc : w.dev.clock ≤ now)
    (hnow : now.toNat < 2 ^ 62) (opt : List Byte) :
    ∃ w', step e w (.event (.change now opt)) = some w' ∧ Works start latency w' ∧
      w'.dev.clock = now ∧
      ∀ q, tbfChange e.tbf false w.dev.q opt = .ok q → w'.dev.q.rate = q.rate := by
  obtain ⟨s, hs, hd⟩ := h.emulator
  obtain ⟨dev, hdev, hdc, hem, hrate⟩ : ∃ dev,
      TbfShape.step e.tbf false w.dev (.change now opt) = some dev ∧ dev.clock = now ∧
        Link.emulator dev.q.qdisc = some s ∧
        ∀ q, tbfChange e.tbf false w.dev.q opt = .ok q → dev.q.rate = q.rate := by
    rw [TbfShape.step]
    cases hq : tbfChange e.tbf false w.dev.q opt with
    | error err => exact ⟨_, rfl, rfl, hs, fun q hno => by cases hno⟩
    | ok q =>
      refine ⟨_, rfl, rfl, ?_, fun q' hq' => by cases hq'; rfl⟩
      obtain ⟨p, qdisc, -, hin, rfl⟩ := tbfChange_ok hq
      rw [qdisc_of_emulator hs] at hin
      cases hin
      rfl
  have hstep : step e w (.event (.change now opt)) = some ⟨dev, w.line, w.left⟩ := by
    rw [step, hdev]
    rfl
  exact ⟨_, hstep, h.of_step (.event (.change now opt)) ⟨hc, hnow⟩ trivial ⟨hc, trivial⟩ hstep
    ⟨s, hem, hd⟩ h.small, hdc, hrate⟩

/-- **A new rate is accepted.** -/
theorem Works.setRate (h : Works start latency w) (hc : w.dev.clock ≤ now)
    (hnow : now.toNat < 2 ^ 62) {rate : U64} {opt : List Byte} (hset : SetsRate rate opt) :
    ∃ w', change e now w opt .bucket = some (w', 0) ∧ Works start latency w' ∧
      w'.dev.clock = now ∧ w'.dev.q.rate.rateBytesPs = rate := by
  obtain ⟨s, hs, -⟩ := h.emulator
  obtain ⟨p, hp, hrate, -⟩ := hset e.tbf.kernel
  obtain ⟨q, hq, hqrate⟩ : ∃ q, tbfChange e.tbf false w.dev.q opt = .ok q ∧ q.rate = p.rate := by
    unfold Tbf.tbfChange
    rw [hp, qdisc_of_emulator hs]
    exact ⟨_, rfl, rfl⟩
  obtain ⟨w', hstep, hworks, hclock, hnew⟩ := h.retune (e := e) hc hnow opt
  refine ⟨w', ?_, hworks, hclock, ?_⟩
  · rw [change, hstep, hq]
    rfl
  · rw [hnew q hq, hqrate, hrate]

/-- **A new latency is accepted.** -/
theorem Works.setLatency (h : Works start latency w) (hc : w.dev.clock ≤ now)
    (hnow : now.toNat < 2 ^ 62) (qopt : TcNetemQopt) (hgap : qopt.gap = 0)
    (hdup : qopt.duplicate = 0) (hjitter : qopt.jitter = 0) :
    ∃ w', change e now w qopt.toBytes .emulator = some (w', 0) ∧
      Works start (e.netem.ticks2ns qopt.latency) w' ∧ w'.dev.clock = now ∧
      w'.dev.q.rate = w.dev.q.rate := by
  obtain ⟨s, hs, hd⟩ := h.emulator
  obtain ⟨data, hdata, hd'⟩ := hd.configure e.ticks2ns_zero now hgap hdup hjitter
  obtain ⟨w', hstep, hclock, hrate, hqdisc⟩ : ∃ w', step e w (.child now qopt.toBytes) = some w' ∧
      w'.dev.clock = now ∧ w'.dev.q.rate = w.dev.q.rate ∧
      w'.dev.q.qdisc = configure e now qopt.toBytes w.dev.q.qdisc := ⟨_, rfl, rfl, rfl, rfl⟩
  refine ⟨w', ?_, ?_, hclock, hrate⟩
  · rw [change, hs, Option.bind_some, hstep, hdata]
    rfl
  · refine h.of_step (.child now qopt.toBytes) ⟨hc, hnow⟩ trivial ⟨hc, trivial⟩ hstep ?_
      (e.ticks2ns_lt _)
    refine ⟨{ s with data := data }, ?_, hd'⟩
    rw [hqdisc, qdisc_of_emulator hs, configure, hdata]
    rfl

end Works

end DynBandwidth.Sched.Device
