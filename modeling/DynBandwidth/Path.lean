import DynBandwidth.Netfilter.QueueStream
import DynBandwidth.Reorder.CounterStream
import DynBandwidth.Sched.Driven

/-! # From the sender to the receiver

The whole way of a stream: its segments are sent over a device that the driver controls, together
with other traffic, and what leaves the device reaches a receiver. There either the resequencing
stage of `nfqueue.c` puts the stream in order, or `reorder_counter.c` counts.

When the driver lowers the latency, segments overtake others, but only those that were sent less
than the spread of the latencies before them. So the receiver gets along with its `FBUF_SIZ` places
if in such a time no more segments are sent, and it passes on at any time what it can
(`path_resequenced`); and what it counts are the segments that are due before an earlier one
(`path_counted`). -/

namespace DynBandwidth.Path

open DynBandwidth.Lib.Runs DynBandwidth.Lib.TimeQueue DynBandwidth.Lib.Resequence
open DynBandwidth.Reorder.Header (U16 U32 U64 Packet)
open DynBandwidth.Reorder.Segments
open DynBandwidth.Reorder.Flows (Rc)
open DynBandwidth.Reorder.Counter (rcHandlePacket)
open DynBandwidth.Netfilter.Stage (QHandle)
open DynBandwidth.Netfilter.Queue (Nfq)
open DynBandwidth.Netfilter.QueueStream (NoWrap arrival acceptAt lowStream)
open DynBandwidth.Sched.Qdisc (Skb)
open DynBandwidth.Sched.Netem (Stamped)
open DynBandwidth.Sched.NetemQueue (tts)
open DynBandwidth.Sched.Device (Net Works)
open DynBandwidth.Sched.Driven
open DynBandwidth.Tbf.Uapi (TcNetemQopt)
open DynBandwidth.Sched

/-! ### Segments on a line -/

/-- When a segment was sent, and the latency of the device at that time. -/
structure Sent where
  time : U64
  latency : U64
  deriving DecidableEq

/-- The time of the `i`-th segment. -/
def timeOf (sent : List Sent) (i : ℕ) : ℕ := (sent[i]?.map fun x => x.time.toNat).getD 0

/-- The time at which the `i`-th segment is due. -/
def dueOf (sent : List Sent) (i : ℕ) : ℕ :=
  (sent[i]?.map fun x => x.time.toNat + x.latency.toNat).getD 0

section Line
variable (index : Skb → Option ℕ)

/-- The segments in a line, in its order; other packets have no index. -/
def segments (line : List Stamped) : List ℕ := line.filterMap fun x => index x.skb

/-- The segments that have left. -/
def received (left : List (Skb × U64)) : List ℕ := left.filterMap fun y => index y.1

/-- The line of a device over which segments were sent: they are all there, with the times at which
they are due, and of two with the same time the earlier one comes first. -/
structure Carries (sent : List Sent) (line : List Stamped) : Prop where
  perm : (segments index line).Perm (List.range sent.length)
  due : ∀ x ∈ line, ∀ i ∈ index x.skb, tts x = dueOf sent i
  order : line.Pairwise fun x y =>
    ∀ i ∈ index x.skb, ∀ j ∈ index y.skb, j < i → tts x < tts y

end Line

section Carry
variable {index : Skb → Option ℕ} {sent : List Sent} {line : List Stamped}

theorem dueOf_append {i : ℕ} (h : i < sent.length) (more : List Sent) :
    dueOf (sent ++ more) i = dueOf sent i := by
  rw [dueOf, dueOf, List.getElem?_append_left h]

theorem Carries.lt (h : Carries index sent line) {x : Stamped} (hx : x ∈ line) {i : ℕ}
    (hi : i ∈ index x.skb) : i < sent.length :=
  List.mem_range.mp (h.perm.mem_iff.mp (List.mem_filterMap.mpr ⟨x, hx, hi⟩))

/-- Where a packet goes, the packets behind it are due later. -/
theorem order_insertLast {R : Stamped → Stamped → Prop} (hs : Sorted tts line)
    (hR : line.Pairwise R) {x : Stamped} (hbefore : ∀ y ∈ line, R y x)
    (hbehind : ∀ y ∈ line, tts x < tts y → R x y) : (insertLast tts x line).Pairwise R := by
  obtain ⟨a, b, rfl, ha, hb⟩ := hs.split x
  rw [insertLast_append ha fun y hy => hb y (List.mem_of_mem_head? hy)]
  obtain ⟨hRa, hRb, hab⟩ := List.pairwise_append.mp hR
  refine List.pairwise_append.mpr ⟨hRa, List.pairwise_cons.mpr ⟨fun y hy => ?_, hRb⟩, ?_⟩
  · exact hbehind y (List.mem_append_right _ hy) (hb y hy)
  · intro y hy z hz
    rcases List.mem_cons.mp hz with rfl | hz
    · exact hbefore y (List.mem_append_left _ hy)
    · exact hab y hy z hz

/-- **Another packet** enters the line. -/
theorem Carries.other (h : Carries index sent line) (hs : Sorted tts line) {x : Stamped}
    (hx : index x.skb = none) : Carries index sent (insertLast tts x line) where
  perm := by
    refine ((insertLast_perm x line).filterMap _).trans ?_
    rw [List.filterMap_cons, hx]
    exact h.perm
  due := by
    intro y hy i hi
    rcases mem_insertLast.mp hy with rfl | hy
    · rw [hx] at hi
      cases hi
    · exact h.due y hy i hi
  order := order_insertLast hs h.order
    (fun y _ i _ j hj => by rw [hx] at hj; cases hj) fun y _ _ i hi => by rw [hx] at hi; cases hi

/-- Other packets enter the line, one after the other. -/
theorem Carries.others (h : Carries index sent line) (hs : Sorted tts line) (now latency : U64)
    {skbs : List Skb} (hskbs : ∀ x ∈ skbs, index x = none) :
    Carries index sent (Link.enterAll now latency skbs line) := by
  refine And.left (List.foldlRecOn (motive := fun l => Carries index sent l ∧ Sorted tts l) skbs _
    ⟨h, hs⟩ fun l hl x hx => ?_)
  exact ⟨hl.1.other hl.2 (hskbs x hx), hl.2.insertLast _⟩

/-- **The next segment** enters the line. -/
theorem Carries.next (h : Carries index sent line) (hs : Sorted tts line) {x : Stamped} {y : Sent}
    (hx : index x.skb = some sent.length) (hdue : tts x = y.time.toNat + y.latency.toNat) :
    Carries index (sent ++ [y]) (insertLast tts x line) where
  perm := by
    refine ((insertLast_perm x line).filterMap _).trans ?_
    rw [List.filterMap_cons, hx, List.length_append, List.length_singleton, List.range_succ]
    exact (h.perm.cons _).trans (List.perm_append_singleton _ _).symm
  due := by
    intro z hz i hi
    rcases mem_insertLast.mp hz with rfl | hz
    · rw [hx] at hi
      cases hi
      rw [hdue, dueOf, List.getElem?_concat_length]
      rfl
    · rw [dueOf_append (h.lt hz hi)]
      exact h.due z hz i hi
  order := by
    refine order_insertLast hs h.order (fun z hz i hi j hj hji => ?_) fun z _ hlt i _ j _ _ => hlt
    rw [hx] at hj
    cases hj
    have := h.lt hz hi
    omega

/-- **The order of the segments**: by the times at which they are due. -/
theorem Carries.sorted (h : Carries index sent line) (hs : Sorted tts line) :
    (segments index line).Pairwise fun i j =>
      dueOf sent i ≤ dueOf sent j ∧ (j < i → dueOf sent i < dueOf sent j) := by
  refine List.pairwise_filterMap.mpr ((hs.and h.order).imp_of_mem ?_)
  rintro x y hx hy ⟨hle, hlt⟩ i hi j hj
  rw [← h.due x hx i hi, ← h.due y hy j hj]
  exact ⟨hle, hlt i hi j hj⟩

theorem received_eq {out : List Stamped} {left : List (Skb × U64)}
    (h : List.Forall₂ NetemRuns.Departed out left) : received index left = segments index out := by
  induction h with
  | nil => rfl
  | cons hd _ ih =>
    unfold received segments at ih ⊢
    rw [List.filterMap_cons, List.filterMap_cons, hd.1, ih]

/-- What has left is the front of the line. -/
theorem received_front {clock : U64} {left : List (Skb × U64)} {s : Netem.NetemSched}
    (h : Link.OnLine clock line left s) : received index left <+: segments index line := by
  obtain ⟨out, shown, rfl, -, -, hout⟩ := h.line
  rw [received_eq hout, segments, segments, List.filterMap_append]
  exact List.prefix_append _ _

end Carry

/-! ### The way -/

/-- The latency of a device. -/
def latencyAt (v : Link.World) : U64 :=
  ((Link.emulator v.dev.q.qdisc).map fun s => s.data.latency).getD 0

/-- The control loop, and the segments that were sent. -/
structure Way where
  sys : System
  sent : List Sent

section Model
variable (c : Setting) (index : Skb → Option ℕ) (dev : U32)

/-- The segment that is sent over the device. -/
def record (net : Net) : Input → List Sent
  | .arrive idx now skb =>
    if idx = dev ∧ (index skb).isSome then
      (net dev).toList.map fun v => ⟨now, latencyAt v⟩
    else []
  | _ => []

/-- A step of the whole. -/
def step (w : Way) (i : Input) : Option Way :=
  (Driven.step c w.sys i).map fun sys => ⟨sys, w.sent ++ record index dev w.sys.net i⟩

/-- What the device takes of a packet. -/
def taken (now : U64) (v : Link.World) (skb : Skb) : List Skb :=
  TbfBooks.takes c.kernel.tbf now v.dev.q skb

/-- The segments, of which there are `n`, are sent in their order, and the device takes them as they
are; of another packet it takes nothing that would be a segment. -/
def InTurn (n : ℕ) (w : Way) : Input → Prop
  | .arrive idx now skb => idx = dev → ∀ v ∈ w.sys.net dev,
      (∀ i ∈ index skb, i = w.sent.length ∧ i < n ∧ taken c now v skb = [skb]) ∧
        (index skb = none → ∀ x ∈ taken c now v skb, index x = none)
  | _ => True

instance (n : ℕ) (w : Way) : DecidablePred (InTurn c index dev n w)
  | .arrive idx now skb => inferInstanceAs (Decidable (idx = dev → ∀ v ∈ w.sys.net dev,
      (∀ i ∈ index skb, i = w.sent.length ∧ i < n ∧ taken c now v skb = [skb]) ∧
        (index skb = none → ∀ x ∈ taken c now v skb, index x = none)))
  | .poll _ _ => isTrue trivial
  | .talk _ => isTrue trivial

end Model

/-! ### A step -/

/-- The line of the device after a step. -/
def lineAfter (c : Setting) (dev : U32) (v : Link.World) : Input → List Stamped
  | .arrive idx now skb =>
    if idx = dev then Link.enterAll now (latencyAt v) (taken c now v skb) v.line else v.line
  | _ => v.line

section Step
variable {c : Setting} {index : Skb → Option ℕ} {dev : U32} {start : U64} {L : U64 → Prop}
  {sys sys' : System} {v : Link.World}

theorem latencyAt_of_works {latency : U64} (h : Works start latency v) : latencyAt v = latency := by
  obtain ⟨s, hem, hd⟩ := h.emulator
  rw [latencyAt, hem]
  exact hd.latency

theorem net_atDevice {now : U64} {idx : U32} {ev : Qdisc.Event} (hv : sys.net dev = some v)
    (hs : atDevice c now sys idx ev = some sys') :
    (idx ≠ dev ∧ sys'.net dev = some v) ∨
      (idx = dev ∧ ∃ v', Link.step c.kernel v (.event ev) = some v' ∧ sys'.net dev = some v') := by
  by_cases hi : idx = dev
  · subst hi
    rw [atDevice, hv] at hs
    obtain ⟨v', hstep, rfl⟩ := Option.map_eq_some_iff.mp hs
    exact Or.inr ⟨rfl, v', hstep, Function.update_self _ _ _⟩
  · refine Or.inl ⟨hi, ?_⟩
    unfold atDevice at hs
    split at hs
    · cases hs
      exact hv
    · obtain ⟨v', -, rfl⟩ := Option.map_eq_some_iff.mp hs
      exact (Function.update_of_ne (Ne.symm hi) _ _).trans hv

/-- **What a step does to the line** of a device. -/
theorem line_step (h : Loop c start L sys) (hL : ∀ e ∈ c.sched.entries, L (latencyOf c e))
    {i : Input} (hc : sys.clock ≤ i.now) (hnow : i.now.toNat < 2 ^ 62)
    (hs : Driven.step c sys i = some sys') (hv : sys.net dev = some v) :
    ∃ v', sys'.net dev = some v' ∧ v'.line = lineAfter c dev v i := by
  cases i with
  | arrive idx now skb =>
    rcases net_atDevice hv hs with ⟨hi, hv'⟩ | ⟨rfl, v', hstep, hv'⟩
    · exact ⟨v, hv', (if_neg hi).symm⟩
    · obtain ⟨-, latency, -, hworks⟩ := h.net idx v hv
      obtain ⟨s, hem, -⟩ := hworks.emulator
      rw [Link.step] at hstep
      obtain ⟨d, -, rfl⟩ := Option.map_eq_some_iff.mp hstep
      refine ⟨_, hv', ?_⟩
      rw [lineAfter, if_pos rfl, latencyAt, Link.post, hem]
      rfl
  | poll idx now =>
    rcases net_atDevice hv hs with ⟨-, hv'⟩ | ⟨rfl, v', hstep, hv'⟩
    · exact ⟨v, hv', rfl⟩
    · rw [Link.step] at hstep
      obtain ⟨d, -, rfl⟩ := Option.map_eq_some_iff.mp hstep
      exact ⟨_, hv', rfl⟩
  | talk now =>
    have hc : sys.clock ≤ now := hc
    cases hst : sys.status with
    | going turn =>
      obtain ⟨sys1, hs1, -, -, hbooks⟩ := h.turn hL hc hnow hst
      rw [hs] at hs1
      cases hs1
      obtain ⟨v', hv', hline, -⟩ := hbooks dev v hv
      exact ⟨v', hv', hline⟩
    | waits =>
      rw [Driven.step, hst] at hs
      cases hs
      exact ⟨v, hv, rfl⟩
    | ended stop =>
      rw [Driven.step, hst] at hs
      cases hs
      exact ⟨v, hv, rfl⟩

/-- **What holds all the way.** -/
structure OnWay (c : Setting) (index : Skb → Option ℕ) (dev : U32) (start : U64) (L : U64 → Prop)
    (n : ℕ) (w : Way) : Prop where
  loop : Loop c start L w.sys
  count : w.sent.length ≤ n
  latency : ∀ x ∈ w.sent, L x.latency
  line : ∃ v, w.sys.net dev = some v ∧ Carries index w.sent v.line

theorem OnWay.step {n : ℕ} {w : Way} (h : OnWay c index dev start L n w)
    (hL : ∀ e ∈ c.sched.entries, L (latencyOf c e)) {i : Input} (hc : w.sys.clock ≤ i.now)
    (hnow : i.now.toNat < 2 ^ 62) (hturn : InTurn c index dev n w i) :
    ∃ w', step c index dev w i = some w' ∧ OnWay c index dev start L n w' ∧
      w'.sys.clock = i.now := by
  obtain ⟨sys', hs, hloop, hclock⟩ := h.loop.step hL hc hnow
  obtain ⟨v, hv, hcarries⟩ := h.line
  obtain ⟨v', hv', hline⟩ := line_step h.loop hL hc hnow hs hv
  obtain ⟨-, latency, hl, hworks⟩ := h.loop.net dev v hv
  have hsorted := hworks.link.sorted
  refine ⟨_, by rw [Path.step, hs]; rfl, ?_, hclock⟩
  -- only a segment that arrives at the device changes more than the line of other packets
  have hquiet : record index dev w.sys.net i = [] → Carries index w.sent v'.line →
      OnWay c index dev start L n ⟨sys', w.sent ++ record index dev w.sys.net i⟩ := by
    intro hno hcarries'
    rw [hno, List.append_nil]
    exact ⟨hloop, h.count, h.latency, v', hv', hcarries'⟩
  cases i with
  | poll idx now => exact hquiet rfl (hline ▸ hcarries)
  | talk now => exact hquiet rfl (hline ▸ hcarries)
  | arrive idx now skb =>
    rw [lineAfter] at hline
    by_cases hi : idx = dev
    · subst hi
      rw [if_pos rfl] at hline
      obtain ⟨hsegment, hother⟩ := hturn rfl v hv
      cases hidx : index skb with
      | none =>
        refine hquiet (if_neg fun hno => ?_) ?_
        · rw [hidx] at hno
          cases hno.2
        · rw [hline]
          exact hcarries.others hsorted now (latencyAt v) (hother hidx)
      | some k =>
        obtain ⟨rfl, hn, htaken⟩ := hsegment k hidx
        rw [htaken] at hline
        have hlat := latencyAt_of_works hworks
        have hrec : record index idx w.sys.net (.arrive idx now skb) = [⟨now, latency⟩] := by
          rw [record, if_pos ⟨rfl, by rw [hidx]; rfl⟩, hv, ← hlat]
          rfl
        have hsum : (now + latency).toNat = now.toNat + latency.toNat := by
          have hsmall := hworks.small
          have hnow : now.toNat < 2 ^ 62 := hnow
          rw [BitVec.toNat_add, Nat.mod_eq_of_lt (by omega)]
        rw [hlat] at hline
        rw [hrec]
        refine ⟨hloop, ?_, fun x hx => ?_, v', hv', ?_⟩
        · rw [List.length_append]
          exact hn
        · rcases List.mem_append.mp hx with hx | hx
          · exact h.latency x hx
          · rw [List.mem_singleton.mp hx]
            exact hl
        · rw [hline]
          exact hcarries.next hsorted hidx hsum
    · rw [if_neg hi] at hline
      exact hquiet (if_neg fun hno => hi hno.1) (hline ▸ hcarries)

end Step

/-! ### The receiver -/

/-- The latencies of the schedule and of the devices are in a range. -/
structure Ranged (c : Setting) (net : Net) (lo hi : ℕ) : Prop where
  entries : ∀ e ∈ c.sched.entries, lo ≤ (latencyOf c e).toNat ∧ (latencyOf c e).toNat ≤ hi
  devices : ∀ i v, net i = some v → lo ≤ (latencyAt v).toNat ∧ (latencyAt v).toNat ≤ hi

/-- The first segment is sent a time before the others, and after every segment no more than `cap`
are sent within this time. -/
def Sparse (sent : List Sent) (spread cap : ℕ) : Prop :=
  (∀ i < sent.length, 0 < i → timeOf sent 0 + spread ≤ timeOf sent i) ∧
    ∀ j < sent.length, ((List.range sent.length).countP fun i =>
      j < i ∧ timeOf sent i < timeOf sent j + spread) ≤ cap

instance (sent : List Sent) (spread cap : ℕ) : Decidable (Sparse sent spread cap) :=
  inferInstanceAs (Decidable (_ ∧ _))

/-- The clock does not go back and has 62 bits, and the segments of the stream are sent in turn. -/
def Sends (c : Setting) (index : Skb → Option ℕ) (dev : U32) (n : ℕ) (w : Way) (i : Input) : Prop :=
  w.sys.clock ≤ i.now ∧ i.now.toNat < 2 ^ 62 ∧ InTurn c index dev n w i

instance (c : Setting) (index : Skb → Option ℕ) (dev : U32) (n : ℕ) (w : Way) (i : Input) :
    Decidable (Sends c index dev n w i) := inferInstanceAs (Decidable (_ ∧ _))

def Way.start (c : Setting) (net : Net) (now : U64) : Way := ⟨System.start c net now, []⟩

section Receiver
variable {c : Setting} {index : Skb → Option ℕ} {dev : U32} {start now : U64} {lo hi n : ℕ}
  {net : Net} {w : Way} {inputs : List Input}

theorem onWay_start (h : SetUp c start net now) (hr : Ranged c net lo hi)
    (hfresh : ∃ v, net dev = some v ∧ segments index v.line = []) :
    OnWay c index dev start (fun x => lo ≤ x.toNat ∧ x.toNat ≤ hi) n (Way.start c net now) where
  loop := by
    refine loop_start h fun i v hv => ?_
    obtain ⟨hc, latency, -, hworks⟩ := h.work i v hv
    exact ⟨hc, latency, latencyAt_of_works hworks ▸ hr.devices i v hv, hworks⟩
  count := Nat.zero_le n
  latency := by rintro x ⟨⟩
  line := by
    obtain ⟨v, hv, hnone⟩ := hfresh
    have hno : ∀ x ∈ v.line, ∀ i, i ∉ index x.skb := by
      intro x hx i hi
      have hmem : i ∈ segments index v.line := List.mem_filterMap.mpr ⟨x, hx, hi⟩
      rw [hnone] at hmem
      cases hmem
    refine ⟨v, hv, by rw [hnone]; rfl, fun x hx i hi => (hno x hx i hi).elim, ?_⟩
    exact List.Pairwise.imp_of_mem (R := fun _ _ => True)
      (fun hx _ _ i hi => (hno _ hx i hi).elim) (List.pairwise_of_forall fun _ _ => trivial)

theorem sent_spec {sent : List Sent} {i : ℕ} (h : i < sent.length) : ∃ x ∈ sent,
    timeOf sent i = x.time.toNat ∧ dueOf sent i = x.time.toNat + x.latency.toNat := by
  refine ⟨sent.get ⟨i, h⟩, List.get_mem _ _, ?_, ?_⟩
  · rw [timeOf, List.getElem?_eq_getElem h]
    rfl
  · rw [dueOf, List.getElem?_eq_getElem h]
    rfl

/-- **The order at the receiver**: what has arrived is the front of an order of the segments in
which each of them is due not after the next one, and at no time too many are waiting. -/
theorem OnWay.order
    (h : OnWay c index dev start (fun x => lo ≤ x.toNat ∧ x.toNat ≤ hi) n w) {cap : ℕ}
    (hsparse : Sparse w.sent (hi - lo) cap) : ∃ v ord, w.sys.net dev = some v ∧
      ord.Perm (List.range w.sent.length) ∧ received index v.left <+: ord ∧
      (∀ pre ∈ ord.inits, (waiting pre).length ≤ cap) ∧ (∀ i ∈ ord.head?, i = 0) ∧
      ord.Pairwise fun i j => dueOf w.sent i ≤ dueOf w.sent j ∧
        (j < i → dueOf w.sent i < dueOf w.sent j) := by
  obtain ⟨v, hv, hcarries⟩ := h.line
  obtain ⟨-, latency, -, hworks⟩ := h.loop.net dev v hv
  obtain ⟨s, hem, -⟩ := hworks.emulator
  have hdue := hcarries.sorted hworks.link.sorted
  have hover : (segments index v.line).Pairwise fun i j => j < i →
      timeOf w.sent i < timeOf w.sent j + (hi - lo) := by
    refine hdue.imp_of_mem fun {i j} hi' hj' hij hlt => ?_
    obtain ⟨x, hx, htx, hdx⟩ := sent_spec (List.mem_range.mp (hcarries.perm.mem_iff.mp hi'))
    obtain ⟨y, hy, hty, hdy⟩ := sent_spec (List.mem_range.mp (hcarries.perm.mem_iff.mp hj'))
    have hlow := (h.latency x hx).1
    have hhigh := (h.latency y hy).2
    have hlt := hij.2 hlt
    omega
  refine ⟨v, _, hv, hcarries.perm, received_front (hworks.link.line s hem),
    waiting_le hcarries.perm hover hsparse.2,
    head_eq_zero hcarries.perm hover fun i hi' hpos => ?_, hdue⟩
  have := hsparse.1 i hi' hpos
  omega

end Receiver

section Results
variable {c : Setting} {index : Skb → Option ℕ} {dev : U32} {start now : U64} {lo hi : ℕ}
  {net : Net} {w : Way} {inputs : List Input} {s d : U16}

theorem onWay_of_run {n : ℕ} (h : SetUp c start net now) (hr : Ranged c net lo hi)
    (hfresh : ∃ v, net dev = some v ∧ segments index v.line = [])
    (hsends : AllSteps (step c index dev) (Sends c index dev n) (Way.start c net now) inputs)
    (hrun : run (step c index dev) (Way.start c net now) inputs = some w) :
    OnWay c index dev start (fun x => lo ≤ x.toNat ∧ x.toNat ≤ hi) n w := by
  refine run_inv_of_allSteps ?_ (onWay_start h hr hfresh) hsends hrun
  rintro w i hw ⟨hc, hnow, hturn⟩
  obtain ⟨w', hs, hw', -⟩ := hw.step hr.entries hc hnow hturn
  exact ⟨w', hs, hw'⟩

/-- **The resequencing stage gets along**: while a stream is sent over a device that the driver
controls, with no more than `FBUF_SIZ` segments within the spread of the latencies, and no timer
fires at the receiver, the stage has at any time accepted, in the order of the stream, exactly the
segments before the first one that has not left the device. -/
theorem path_resequenced (st : Stream s d) (h : SetUp c start net now) (hr : Ranged c net lo hi)
    (hfresh : ∃ v, net dev = some v ∧ segments index v.line = [])
    (hsends : AllSteps (step c index dev) (Sends c index dev st.length) (Way.start c net now)
      inputs)
    (hrun : run (step c index dev) (Way.start c net now) inputs = some w)
    (hsparse : Sparse w.sent (hi - lo) 256) (hst : NoWrap st)
    {evs : List Netfilter.Queue.Event} {nfq : Nfq}
    (hnfq : run Netfilter.Queue.step Nfq.init evs = some nfq)
    (hnew : nfq.flow s d = none) (queue : QHandle) (time : ℕ → ℚ) (id : ℕ → U32) :
    ∃ v nfq' k, w.sys.net dev = some v ∧
      run Netfilter.Queue.step nfq (((received index v.left).map
        (arrival st queue time id)).map .packet) = some nfq' ∧
      nfq'.calls = nfq.calls ++
        (List.range k).map (acceptAt queue id) ∧
      (∀ j < k, j ∈ received index v.left) ∧ k ∉ received index v.left := by
  have hway := onWay_of_run h hr hfresh hsends hrun
  obtain ⟨v, ord, hv, hperm, hfront, hwait, hhead, -⟩ := hway.order hsparse
  have hnd : ord.Nodup := hperm.nodup_iff.mpr List.nodup_range
  have hlt : ∀ j ∈ ord, j < st.length := fun j hj =>
    lt_of_lt_of_le (List.mem_range.mp (hperm.mem_iff.mp hj)) hway.count
  have hndr : (received index v.left).Nodup := hfront.sublist.nodup hnd
  refine ⟨v, ?_⟩
  cases hrec : received index v.left with
  | nil => exact ⟨nfq, 0, hv, rfl, by simp, by simp, by simp⟩
  | cons i post =>
    rw [hrec] at hfront hndr
    obtain rfl : i = 0 := hhead i (by
      obtain ⟨rest, rfl⟩ := hfront
      rfl)
    obtain ⟨f, hrunf, -⟩ := Netfilter.QueueStream.run_pre queue time id hst hnd hlt hwait _ hfront
    have hrun' : run Netfilter.Queue.flowStep ⟨none, []⟩ ((0 :: post).map
        (arrival st queue time id)) = _ := hrunf
    obtain ⟨nfq', hr', -, -, l, hl1, hl2⟩ := Netfilter.Queue.run_single (s := s) (d := d)
      (Netfilter.Queue.keeps_sized.of_run hnfq).1 (fun a ha => by
        obtain ⟨j, hj, rfl⟩ := List.mem_map.mp ha
        exact st.flow _ (Stream.seg_mem (hlt j (hfront.subset hj)))) hnew hrun'
    refine ⟨nfq', _, hv, hr', by rw [hl1, ← List.nil_append l, ← hl2], fun j hj => ?_,
      next_notMem hndr⟩
    exact ((inv_arrivals hndr).arrived j).mpr (Or.inl hj)

/-- **What the counter counts**: when all segments have left the device, those that were due before
an earlier one. -/
theorem path_counted (st : Stream s d) (h : SetUp c start net now) (hr : Ranged c net lo hi)
    (hfresh : ∃ v, net dev = some v ∧ segments index v.line = [])
    (hsends : AllSteps (step c index dev) (Sends c index dev st.length) (Way.start c net now)
      inputs)
    (hrun : run (step c index dev) (Way.start c net now) inputs = some w)
    (hsparse : Sparse w.sent (hi - lo) 1024)
    (hall : ∀ v, w.sys.net dev = some v → (received index v.left).length = w.sent.length)
    {tr : List Packet} {rc : Rc}
    (hrc : run rcHandlePacket Rc.init tr = some rc)
    (hnew : rc.flow s d = none) :
    ∃ v rc', w.sys.net dev = some v ∧
      run rcHandlePacket rc ((received index v.left).map st.seg) = some rc' ∧
      rc'.reorderCount = rc.reorderCount + BitVec.ofNat 64
        ((List.range w.sent.length).countP fun j => ∃ i < j, dueOf w.sent j < dueOf w.sent i) := by
  have hway := onWay_of_run h hr hfresh hsends hrun
  obtain ⟨v, ord, hv, hperm, hfront, hwait, hhead, hdue⟩ := hway.order hsparse
  -- everything has left, so what was received is the whole order
  obtain rfl : received index v.left = ord :=
    hfront.eq_of_length ((hall v hv).trans (by rw [hperm.length_eq, List.length_range]))
  have hnd : (received index v.left).Nodup := hperm.nodup_iff.mpr List.nodup_range
  have hlt : ∀ j ∈ received index v.left, j < st.length := fun j hj =>
    lt_of_lt_of_le (List.mem_range.mp (hperm.mem_iff.mp hj)) hway.count
  have hcount : (received index v.left).countP (late (received index v.left)) =
      (List.range w.sent.length).countP fun j => ∃ i < j, dueOf w.sent j < dueOf w.sent i := by
    rw [hperm.countP_eq]
    refine List.countP_congr fun j hj => ?_
    rw [decide_eq_true_eq, decide_eq_true_eq]
    exact late_iff_key hperm hdue (List.mem_range.mp hj)
  rw [← hcount]
  refine ⟨v, ?_⟩
  cases hrec : received index v.left with
  | nil => exact ⟨rc, hv, rfl, by simp⟩
  | cons i post =>
    rw [hrec] at hnd hlt hwait hhead
    obtain rfl : i = 0 := hhead i rfl
    obtain ⟨rc', f, hr', -, -, -, hcount'⟩ := Reorder.CounterStream.run_stream st hnd hlt hwait
      (Reorder.Counter.keeps_sized.of_run hrc).1 hnew
    exact ⟨rc', hv, hr', hcount'⟩

end Results

/-- Packets from 100 on carry the segments of a stream. -/
def fromHundred (skb : Skb) : Option ℕ := if 100 ≤ skb.id then some (skb.id - 100) else none

/-- A link of ten megabytes per second with a latency of 1.28 milliseconds. -/
def slowLink : Link.World :=
  ((Link.step Link.Env.plain (Link.World.start 0)
    (.event (.change 1 (Parms.plainOptions 10000000 2500)))).bind fun v =>
      (Device.change Link.Env.plain 2 v
        (TcNetemQopt.toBytes ⟨20000, 100, 0, 0, 0, 0⟩) .emulator).map Prod.fst).getD
          (Link.World.start 0)

theorem slowLink_works : Works 0 1280000 slowLink ∧ slowLink.dev.clock = 2 := by
  have hw0 : Works 0 0 (Link.World.start 0) := Device.works_start (by decide)
  obtain ⟨v1, h1, hw1, hc1, -⟩ := hw0.retune (e := Link.Env.plain) (show _ ≤ (1 : U64) by decide)
    (by decide) (Parms.plainOptions 10000000 2500)
  obtain ⟨v2, h2, hw2, hc2, -⟩ := hw1.setLatency (e := Link.Env.plain)
    (show _ ≤ (2 : U64) by rw [hc1]; decide) (by decide) ⟨20000, 100, 0, 0, 0, 0⟩ rfl rfl rfl
  have hslow : slowLink = v2 := by
    rw [slowLink, h1, Option.bind_some, h2]
    rfl
  rw [hslow]
  exact ⟨hw2, hc2⟩

def slowLinks : Net := fun i => if i = 3 ∨ i = 4 then some slowLink else none

/-- A round, three segments and another packet. The round lowers the latency, and the last segment
overtakes the one before it. -/
def lowering : List Input :=
  [.arrive 3 50 ⟨100, 1000⟩, .arrive 3 60 ⟨5, 500⟩, .arrive 3 1300000 ⟨101, 1500⟩, .talk 1300010,
    .talk 1300020, .talk 1300030, .talk 1300040, .arrive 3 1300050 ⟨102, 1200⟩, .poll 3 1300060,
    .poll 3 1300070, .poll 3 2000000, .poll 3 2600000]

theorem lowering_evaluates :
    (run (step twoLinks fromHundred 3) (Way.start twoLinks slowLinks 2) lowering).any (fun w =>
      decide (w.sent = [⟨50, 1280000⟩, ⟨1300000, 1280000⟩, ⟨1300050, 640000⟩]) &&
        (w.sys.net 3).any fun v => decide (received fromHundred v.left = [0, 2, 1])) = true := by
  decide +kernel

theorem lowering_sends : AllSteps (step twoLinks fromHundred 3) (Sends twoLinks fromHundred 3 3)
    (Way.start twoLinks slowLinks 2) lowering := by
  decide +kernel

theorem lowering_run : ∃ w v,
    run (step twoLinks fromHundred 3) (Way.start twoLinks slowLinks 2) lowering = some w ∧
      w.sent = [⟨50, 1280000⟩, ⟨1300000, 1280000⟩, ⟨1300050, 640000⟩] ∧ w.sys.net 3 = some v ∧
      received fromHundred v.left = [0, 2, 1] := by
  have h := lowering_evaluates
  cases hrun : run (step twoLinks fromHundred 3) (Way.start twoLinks slowLinks 2) lowering with
  | none =>
    rw [hrun] at h
    cases h
  | some w =>
    rw [hrun, Option.any_some, Bool.and_eq_true] at h
    obtain ⟨hsent, hnet⟩ := h
    cases hv : w.sys.net 3 with
    | none =>
      rw [hv] at hnet
      cases hnet
    | some v =>
      rw [hv] at hnet
      exact ⟨w, v, rfl, of_decide_eq_true hsent, hv, of_decide_eq_true hnet⟩

theorem slowLinks_eq {i : U32} {v : Link.World} (h : slowLinks i = some v) : v = slowLink := by
  unfold slowLinks at h
  split_ifs at h
  cases h
  rfl

theorem slowLinks_setUp : SetUp twoLinks 0 slowLinks 2 where
  work := by
    intro i v hv
    obtain ⟨hworks, hclock⟩ := slowLink_works
    rw [slowLinks_eq hv]
    exact ⟨hclock ▸ BitVec.le_refl _, _, trivial, hworks⟩
  devices := ⟨⟨_, rfl⟩, ⟨_, rfl⟩⟩

theorem slowLinks_ranged : Ranged twoLinks slowLinks 0 1280000 where
  entries := by decide
  devices := by
    intro i v hv
    rw [slowLinks_eq hv, latencyAt_of_works slowLink_works.1]
    decide

theorem slowLinks_fresh : ∃ v, slowLinks 3 = some v ∧ segments fromHundred v.line = [] :=
  ⟨slowLink, rfl, rfl⟩

theorem path_resequenced_lowering : ∃ w v nfq,
    run (step twoLinks fromHundred 3) (Way.start twoLinks slowLinks 2) lowering = some w ∧
      w.sys.net 3 = some v ∧ received fromHundred v.left = [0, 2, 1] ∧
      run Netfilter.Queue.step Nfq.init (([0, 2, 1].map (arrival lowStream none
        (fun _ => 0) (BitVec.ofNat 32))).map .packet) = some nfq ∧
      nfq.calls = [⟨none, 0, .accept⟩, ⟨none, 1, .accept⟩, ⟨none, 2, .accept⟩] := by
  obtain ⟨w, v, hrun, hsent, hv, hrec⟩ := lowering_run
  obtain ⟨v', nfq, k, hv', hr, hcalls, hbefore, hk⟩ := path_resequenced lowStream
    slowLinks_setUp slowLinks_ranged slowLinks_fresh lowering_sends hrun
    (by rw [hsent]; decide) (by unfold NoWrap; decide)
    (show run Netfilter.Queue.step Nfq.init [] = _ from rfl)
    (Netfilter.Queue.flow_init 7 9) none (fun _ => 0) (BitVec.ofNat 32)
  rw [hv] at hv'
  cases hv'
  rw [hrec] at hr hbefore hk
  obtain rfl : k = 3 := by
    have h3 := mt (hbefore 3) (by decide)
    have hmem : ∀ m < 3, m ∈ [0, 2, 1] := by decide
    have hge := mt (hmem k) hk
    omega
  exact ⟨w, v, nfq, hrun, hv, hrec, hr, hcalls⟩

theorem path_counted_lowering : ∃ w v rc,
    run (step twoLinks fromHundred 3) (Way.start twoLinks slowLinks 2) lowering = some w ∧
      w.sys.net 3 = some v ∧ received fromHundred v.left = [0, 2, 1] ∧
      run rcHandlePacket Rc.init ([0, 2, 1].map lowStream.seg) = some rc ∧
      rc.reorderCount = 1 := by
  obtain ⟨w, v, hrun, hsent, hv, hrec⟩ := lowering_run
  obtain ⟨v', rc, hv', hr, hcount⟩ := path_counted lowStream
    slowLinks_setUp slowLinks_ranged slowLinks_fresh lowering_sends hrun
    (by rw [hsent]; decide) (fun v' hv' => by rw [hv] at hv'; cases hv'; rw [hrec, hsent]; rfl)
    (show run rcHandlePacket Rc.init [] = _ from rfl) (Reorder.Flows.flow_init 7 9)
  rw [hv] at hv'
  cases hv'
  rw [hrec] at hr
  refine ⟨w, v, rc, hrun, hv, hrec, hr, ?_⟩
  rw [hcount, hsent]
  decide

end DynBandwidth.Path
