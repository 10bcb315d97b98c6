import DynBandwidth.Reorder.Counter
import DynBandwidth.Reorder.TcpCounter

/-! # From bytes to packets

The loop of `main` receives each IP datagram of the interface into one buffer, and
`rc_handle_packet` reads the headers there. It looks at neither the protocol, the fragment offset
and the header lengths, nor the number of bytes received: every datagram is handled as the packet
whose TCP header starts at `4 * ihl`, with bytes of earlier datagrams where this one is too short.

So a datagram that is not a TCP segment acts as the packet it is read as (`datagram_effect`): on the
flow of the ports that are read, and with no effect at all only where such a packet has none. The
bytes received determine what it does as soon as they reach the flags of the TCP header. -/

namespace DynBandwidth.Reorder.Datagram

open DynBandwidth.Lib.Serial DynBandwidth.Lib.RbTree DynBandwidth.Lib.Runs
open DynBandwidth.Reorder.Header DynBandwidth.Reorder.SeqTree DynBandwidth.Reorder.Flows

def pbufSiz : ℕ := 0xffff

/-- The receive buffer. Header fields lie in its first 74 bytes. -/
abbrev Data := ℕ → U8

/-! ### The headers -/

section Headers
variable (data : Data)

/-- The 16-bit number in network order at an offset. -/
def ntohs (i : ℕ) : U16 := data i ++ data (i + 1)

/-- The 32-bit number in network order at an offset. -/
def ntohl (i : ℕ) : U32 := data i ++ data (i + 1) ++ data (i + 2) ++ data (i + 3)

def ihl : ℕ := (data 0).toNat % 16

def totLen : U16 := ntohs data 2

/-- The fragment offset, without the flags. -/
def fragOff : U16 := ntohs data 6 &&& 0x1fff

def protocol : U8 := data 9

/-- The offset of the TCP header. -/
def tcp : ℕ := 4 * ihl data

def thOff : ℕ := (data (tcp data + 12)).toNat / 16

def psize : U16 :=
  ((totLen data).setWidth 32 - BitVec.ofNat 32 ((ihl data + thOff data) * 4)).setWidth 16

/-- The local variables of `rc_handle_packet`. -/
def headers : Packet where
  sport := ntohs data (tcp data)
  dport := ntohs data (tcp data + 2)
  psize := psize data
  seq := ntohl data (tcp data + 4)
  flags := data (tcp data + 13)
  ipid := ntohs data 4

/-- Not a complete TCP segment of `len` bytes; no program tests this. -/
def Incomplete (len : ℕ) : Prop :=
  protocol data ≠ 6 ∨ fragOff data ≠ 0 ∨ ihl data < 5 ∨ thOff data < 5 ∨ len < 4 * ihl data + 20 ∨
    (totLen data).toNat < 4 * (ihl data + thOff data)

instance (len : ℕ) : Decidable (Incomplete data len) := by unfold Incomplete; infer_instance

end Headers

/-- `recvfrom` overwrites the front of the buffer. -/
def recvfrom (data : Data) (datagram : List U8) : Data := fun i =>
  (datagram.take pbufSiz)[i]?.getD (data i)

/-- **`rc_handle_packet(data, len)`**, for the program with the handler `h`. -/
def rcHandleData (h : Handler) (rc : Rc) (data : Data) (_len : ℕ) : Option Rc :=
  h.rcHandlePacket rc (headers data)

/-- Every flow and the count are as before. -/
def Unchanged (rc rc' : Rc) : Prop :=
  (∀ s d, rc'.flow s d = rc.flow s d) ∧ rc'.reorderCount = rc.reorderCount

/-! ### What the headers depend on -/

theorem headers_congr {data data' : Data} (h : ∀ i < tcp data + 14, data i = data' i) :
    headers data = headers data' := by
  have hihl : ihl data = ihl data' := by rw [ihl, ihl, h 0 (by omega)]
  have htcp : tcp data = tcp data' := by rw [tcp, tcp, hihl]
  have h16 : ∀ i, i + 1 < tcp data + 14 → ntohs data i = ntohs data' i := fun i hi => by
    rw [ntohs, ntohs, h i (by omega), h (i + 1) hi]
  have hoff : thOff data = thOff data' := by rw [thOff, thOff, h _ (by omega), htcp]
  have hsize : psize data = psize data' := by
    rw [psize, psize, totLen, totLen, h16 2 (by omega), hihl, hoff]
  unfold headers
  rw [h16 _ (by omega), h16 _ (by omega), h16 4 (by omega), h (tcp data + 13) (by omega), hsize]
  unfold ntohl
  rw [h _ (by omega), h _ (by omega), h _ (by omega), h _ (by omega), htcp]

theorem tcp_le (data : Data) : tcp data ≤ 60 := by
  unfold tcp ihl
  omega

/-- A datagram that reaches the flags of the TCP header hides what was in the buffer. -/
theorem headers_recvfrom {data data' : Data} {datagram : List U8}
    (h : tcp (recvfrom data datagram) + 14 ≤ datagram.length) :
    headers (recvfrom data datagram) = headers (recvfrom data' datagram) := by
  refine headers_congr fun i hi => ?_
  have htcp := tcp_le (recvfrom data datagram)
  have hlen : i < (datagram.take pbufSiz).length := by
    rw [List.length_take, pbufSiz]
    omega
  rw [recvfrom, recvfrom, List.getElem?_eq_getElem hlen]
  rfl

/-! ### When a packet has no effect -/

/-- A packet has no effect if its flow is known, the handler leaves it as it is and counts nothing.
-/
theorem unchanged_iff (h : Handler) {rc rc' : Rc} (hwf : rc.WF) {p : Packet}
    (hr : h.rcHandlePacket rc p = some rc') : Unchanged rc rc' ↔
      ∃ f e, rc.flow p.sport p.dport = some f ∧ h.handle f p = some (f, e) ∧ e.counted = 0 := by
  obtain ⟨f', e, hh, -, hat, hother, hcount, -⟩ := rcHandlePacket_some h hwf hr
  unfold Unchanged
  rw [hcount]
  constructor
  · rintro ⟨hflows, hzero⟩
    have hflow := (hflows p.sport p.dport).symm.trans hat
    rw [hflow] at hh
    exact ⟨f', e, hflow, hh, by simpa using hzero⟩
  · rintro ⟨f, e', hflow, hh', hzero⟩
    rw [hflow, Option.getD_some, hh'] at hh
    cases hh
    refine ⟨fun s d => ?_, by rw [hzero, add_zero]⟩
    by_cases hk : s = p.sport ∧ d = p.dport
    · rw [hk.1, hk.2, hat, hflow]
    · exact hother s d hk

theorem nextAfter_eq_seq {p : Packet} : nextAfter p = p.seq ↔ p.syn = false ∧ p.psize = 0 := by
  by_cases hsyn : p.syn = true
  · rw [nextAfter, if_pos hsyn, hsyn]
    exact iff_of_false (fun h => absurd (add_eq_left.mp h) (by decide)) (by simp)
  · rw [Bool.not_eq_true] at hsyn
    have hd := sdist_seqEnd p.seq p.psize
    rw [nextAfter_eq hsyn, ← sdist_eq_zero, hd, ← BitVec.toNat_inj]
    simp [hsyn]

/-- **In `tcp_reordercounter.c`**, a packet of a known flow has no effect if and only if it starts
at `expected_next` and takes no sequence numbers. -/
theorem countBefore_silent {f : RcFlowbuf} {p : Packet} :
    (∃ e, TcpCounter.countBefore f p = some (f, e) ∧ e.counted = 0) ↔
      p.syn = false ∧ p.psize = 0 ∧ p.seq = f.expectedNext := by
  rw [← and_assoc, ← nextAfter_eq_seq]
  unfold TcpCounter.countBefore
  split_ifs with hb
  · refine iff_of_false (by rintro ⟨e, ⟨⟩, hzero⟩; cases hzero) ?_
    rintro ⟨-, heq⟩
    rw [heq, before_iff, sdist_self] at hb
    omega
  · constructor
    · rintro ⟨e, hf, -⟩
      have hnext : nextAfter p = f.expectedNext :=
        congrArg (fun r => RcFlowbuf.expectedNext r.1) (Option.some.inj hf)
      have hd := sdist_nextAfter p
      have hswap := sdist_swap (a := nextAfter p) (b := p.seq) (by omega)
      rw [before_iff, ← hnext] at hb
      have heq := sdist_eq_zero.mp (show sdist (nextAfter p) p.seq = 0 by omega)
      exact ⟨heq, heq.symm.trans hnext⟩
    · rintro ⟨heq, hseq⟩
      exact ⟨⟨0, []⟩, by rw [heq, hseq], rfl⟩

/-- When a packet has no effect on its flow in `reorder_counter.c`: a packet at or before
`expected_next` ends there, and the first held segment is not due; a packet behind it meets a held
segment of its number that is not smaller, or a full buffer in which the lowest number is above its
own. -/
def Silent (f : RcFlowbuf) (p : Packet) : Prop :=
  if before p.seq f.expectedNext || p.seq == f.expectedNext then
    nextAfter p = f.expectedNext ∧ ∀ x, f.root.first = some x →
      ¬ (before x.seq f.expectedNext || x.seq == f.expectedNext) = true
  else if f.size < Counter.fbufSiz then
    ∃ x, (insertSeq RcFlowdata.seq p.seq ⟨p.seq, p.psize⟩ (Counter.retransmit p.psize)
      f.root).2 = some x ∧ p.psize ≤ x.segSize
  else ∀ x, f.root.first = some x → ¬ x.seq ≤ p.seq

theorem release_none {f : RcFlowbuf} (h : ∀ x, f.root.first = some x →
    ¬ (before x.seq f.expectedNext || x.seq == f.expectedNext) = true) (n : ℕ) :
    Counter.release n f = (f, []) := by
  cases n with
  | zero => rfl
  | succ n =>
    unfold Counter.release
    rcases hx : f.root.first with _ | x
    · rfl
    · exact if_neg (h x hx)

theorem retransmit_eq_self {segSize : U16} {x : RcFlowdata} :
    Counter.retransmit segSize x = x ↔ segSize ≤ x.segSize := by
  unfold Counter.retransmit
  split_ifs with h
  · exact iff_of_true rfl (BitVec.le_of_lt h)
  · constructor
    · intro he
      exact BitVec.le_of_eq (congrArg RcFlowdata.segSize he)
    · intro hle
      rw [show segSize = x.segSize from BitVec.le_antisymm hle (BitVec.not_lt.mp h)]

/-- The insertion has no effect if it meets a segment that is not smaller. -/
theorem insert_silent {f : RcFlowbuf} {seq : U32} {segSize : U16} :
    ((Counter.insertOrSendPacket f seq segSize).1 = f ∧
      (Counter.insertOrSendPacket f seq segSize).2 = 0) ↔
    ∃ x, (insertSeq RcFlowdata.seq seq ⟨seq, segSize⟩ (Counter.retransmit segSize)
      f.root).2 = some x ∧ segSize ≤ x.segSize := by
  rcases insertSeq_cases RcFlowdata.seq seq ⟨seq, segSize⟩ (Counter.retransmit segSize) f.root with
    ⟨l, r, -, -, hnone⟩ | ⟨l, x, r, h1, h2, hsome, -⟩
  · rw [Counter.insertOrSendPacket_counted_of_none f seq segSize hnone, hnone]
    exact iff_of_false (by rintro ⟨-, ⟨⟩⟩) (by rintro ⟨x, ⟨⟩, -⟩)
  · have hinsert : Counter.insertOrSendPacket f seq segSize = ({ f with root := (insertSeq
        RcFlowdata.seq seq ⟨seq, segSize⟩ (Counter.retransmit segSize) f.root).1 }, 0) := by
      unfold Counter.insertOrSendPacket
      split <;> simp_all
    rw [hinsert, hsome]
    simp only [and_true, Option.some.injEq, exists_eq_left', ← retransmit_eq_self]
    constructor
    · intro h
      have hlist : l ++ Counter.retransmit segSize x :: r = l ++ x :: r := by
        rw [← h2, ← h1]
        exact congrArg RcFlowbuf.held h
      exact (List.cons.inj (List.append_cancel_left hlist)).1
    · intro h
      rw [show (insertSeq RcFlowdata.seq seq ⟨seq, segSize⟩ (Counter.retransmit segSize) f.root).1 =
        f.root from upsert_same _ _ hsome h]

/-- A full buffer that sends its first segment has changed, or the packet is counted. -/
theorem evict_not_silent {f : RcFlowbuf} {d : RcFlowdata} {seq : U32} {segSize : U16} :
    ¬ ((Counter.insertOrSendPacket (Counter.sendPacketAt f d) seq segSize).1 = f ∧
      (Counter.insertOrSendPacket (Counter.sendPacketAt f d) seq segSize).2 = 0) := by
  rintro ⟨hf, hzero⟩
  obtain ⟨n, hn, -, hsize, hcount⟩ :=
    Counter.insertOrSendPacket_size (Counter.sendPacketAt f d) seq segSize
  rw [hf, show (Counter.sendPacketAt f d).size = f.size - 1 from rfl] at hsize
  obtain rfl | rfl : n = 0 ∨ n = 1 := by omega
  · bv_omega
  · rw [hcount] at hzero
    cases hzero

/-- The loop has no effect if the packet ends at `expected_next` and no held segment is due. -/
theorem release_silent {f : RcFlowbuf} {e : U32} :
    (Counter.release f.held.length { f with expectedNext := e }).1 = f ↔
      e = f.expectedNext ∧ ∀ x, f.root.first = some x →
        ¬ (before x.seq f.expectedNext || x.seq == f.expectedNext) = true := by
  constructor
  · intro h
    obtain ⟨-, hheld, hnext, -⟩ :=
      Counter.release_spec f.held.length { f with expectedNext := e } le_rfl
    rw [h] at hheld hnext
    dsimp only at hheld hnext
    have happ := congrArg List.length (Counter.chain_append e f.held)
    rw [List.length_append, show (Counter.chain e f.held).2 = f.held from hheld.symm] at happ
    have hnil : (Counter.chain e f.held).1 = [] := List.eq_nil_of_length_eq_zero (by omega)
    have he : f.expectedNext = e := hnext.trans (congrArg (Counter.lastEnd e) hnil)
    refine ⟨he.symm, fun x hx hdue => ?_⟩
    rw [first_eq_head?, ← RcFlowbuf.held, List.head?_eq_some_iff] at hx
    obtain ⟨xs, hxs⟩ := hx
    rw [hxs, Counter.chain, ← he, if_pos hdue] at hnil
    cases hnil
  · rintro ⟨rfl, hdue⟩
    rw [release_none hdue]

theorem exists_effect {f g : RcFlowbuf} {e : Effect} :
    (∃ e', some (g, e) = some (f, e') ∧ e'.counted = 0) ↔ g = f ∧ e.counted = 0 := by
  simp [and_assoc]

/-- **In `reorder_counter.c`**, a packet of a known flow has no effect if and only if it is silent.
-/
theorem lowestFirst_silent {f : RcFlowbuf} {p : Packet} (hf : Counter.Sized f) :
    (∃ e, Counter.lowestFirst f p = some (f, e) ∧ e.counted = 0) ↔ Silent f p := by
  unfold Counter.lowestFirst Silent
  split_ifs with hle hroom
  · rw [exists_effect, release_silent]
    exact and_iff_left rfl
  · rw [exists_effect, insert_silent]
  · rcases hfirst : f.root.first with _ | d
    · -- a full buffer has a first segment
      rw [first_eq_head?, List.head?_eq_none_iff, ← RcFlowbuf.held] at hfirst
      exact absurd (hf.lt_iff.mpr (by rw [hfirst]; decide)) hroom
    · simp only [Option.some.injEq, forall_eq']
      split_ifs with hlow
      · rw [exists_effect]
        exact iff_of_false evict_not_silent (not_not_intro hlow)
      · rw [exists_effect]
        exact iff_of_true ⟨rfl, rfl⟩ hlow

/-! ### Datagrams -/

/-- **What a datagram does**, received over the bytes of the buffer: it is handled as the packet
read from the headers, whatever it is. It changes no flow but that of the ports read, and nothing at
all if and only if that flow is known and the packet is silent there. The bytes received determine
the effect if they reach the flags of the TCP header. -/
def HandledAsRead (h : Handler) (silent : RcFlowbuf → Packet → Prop) (rc : Rc) (data : Data)
    (datagram : List U8) : Prop :=
  let p := headers (recvfrom data datagram)
  ∃ rc', rcHandleData h rc (recvfrom data datagram) datagram.length = some rc' ∧
    (∀ s d, ¬ (s = p.sport ∧ d = p.dport) → rc'.flow s d = rc.flow s d) ∧
    (Unchanged rc rc' ↔ ∃ f, rc.flow p.sport p.dport = some f ∧ silent f p) ∧
    (tcp (recvfrom data datagram) + 14 ≤ datagram.length → ∀ data',
      rcHandleData h rc (recvfrom data' datagram) datagram.length = some rc')

theorem handledAsRead {h : Handler} {I : RcFlowbuf → Prop} (hk : h.Keeps I)
    {silent : RcFlowbuf → Packet → Prop}
    (hsilent : ∀ f p, I f →
      ((∃ e, h.handle f p = some (f, e) ∧ e.counted = 0) ↔ silent f p))
    {tr : List Packet} {rc : Rc} (hrun : run h.rcHandlePacket Rc.init tr = some rc) (data : Data)
    (datagram : List U8) : HandledAsRead h silent rc data datagram := by
  have hall := hk.of_run hrun
  set p := headers (recvfrom data datagram) with hp
  obtain ⟨f', e, hh, -⟩ := hk.step _ p (hall.getD (hk.fresh p) p.sport p.dport)
  obtain ⟨rc', hr, -, -, hother, -⟩ := rcHandlePacket_spec h hall.1 hh
  refine ⟨rc', hr, hother, ?_, fun hlen data' => ?_⟩
  · rw [unchanged_iff h hall.1 hr]
    constructor
    · rintro ⟨f, e', hflow, hf⟩
      exact ⟨f, hflow, (hsilent f p (hall.2 _ _ f hflow)).mp ⟨e', hf⟩⟩
    · rintro ⟨f, hflow, hf⟩
      obtain ⟨e', hf'⟩ := (hsilent f p (hall.2 _ _ f hflow)).mpr hf
      exact ⟨f, e', hflow, hf'⟩
  · rw [rcHandleData, ← headers_recvfrom hlen]
    exact hr

/-- **Every datagram is handled as the packet it is read as**, in every state of the two counters
that can be reached and with any bytes in the buffer. -/
theorem datagram_effect (data : Data) (datagram : List U8) :
    (∀ tr rc, run TcpCounter.rcHandlePacket Rc.init tr = some rc →
      HandledAsRead TcpCounter.handler
        (fun f p => p.syn = false ∧ p.psize = 0 ∧ p.seq = f.expectedNext) rc data datagram) ∧
    (∀ tr rc, run Counter.rcHandlePacket Rc.init tr = some rc →
      HandledAsRead Counter.handler Silent rc data datagram) :=
  ⟨fun _ _ hrun => handledAsRead TcpCounter.keeps_plain (fun _ _ _ => countBefore_silent) hrun data
      datagram,
    fun _ _ hrun => handledAsRead Counter.keeps_sized (fun _ _ hf => lowestFirst_silent hf) hrun
      data datagram⟩

/-- A UDP datagram without payload, from port 7 to port 9. -/
def udpDatagram : List U8 :=
  [0x45, 0, 0, 28, 0, 0, 0, 0, 64, 17, 0, 0, 10, 0, 0, 1, 10, 0, 0, 2, 0, 7, 0, 9, 0, 8, 0, 0]

/-- A segment of the flow from port 7 to port 9. -/
def knownSegment : Packet := ⟨7, 9, 100, 1000, 16, 1⟩

/-- The flow that is read from the datagram is known in both counters. -/
theorem datagram_effect_udp : ∃ rc rc',
    run TcpCounter.rcHandlePacket Rc.init [knownSegment] = some rc ∧
    run Counter.rcHandlePacket Rc.init [knownSegment] = some rc' ∧
    (rc.flow 7 9).isSome ∧ (rc'.flow 7 9).isSome ∧
    HandledAsRead TcpCounter.handler
      (fun f p => p.syn = false ∧ p.psize = 0 ∧ p.seq = f.expectedNext) rc (fun _ => 0)
      udpDatagram ∧
    HandledAsRead Counter.handler Silent rc' (fun _ => 0) udpDatagram :=
  ⟨_, _, rfl, rfl, rfl, rfl, (datagram_effect _ _).1 [knownSegment] _ rfl,
    (datagram_effect _ _).2 [knownSegment] _ rfl⟩

/-- The first packet of a flow has an effect. -/
theorem first_effect {h : Handler} {I : RcFlowbuf → Prop} (hk : h.Keeps I) (p : Packet) :
    ∃ rc, h.rcHandlePacket Rc.init p = some rc ∧ ¬ Unchanged Rc.init rc := by
  obtain ⟨f, e, hh, -⟩ := hk.step _ p (hk.fresh p)
  obtain ⟨rc, hr, -⟩ := rcHandlePacket_spec h wf_init (p := p) (by rw [flow_init]; exact hh)
  refine ⟨rc, hr, ?_⟩
  rw [unchanged_iff h wf_init hr]
  rintro ⟨g, e', hflow, -⟩
  rw [flow_init] at hflow
  cases hflow

/-- **Datagrams that are no TCP segments have effects.** A UDP datagram makes a flow in both
counters, and what its first 24 bytes do depends on what was in the buffer before. -/
theorem udp_counted :
    Incomplete (recvfrom (fun _ => 0) udpDatagram) udpDatagram.length ∧
    (∃ rc, rcHandleData TcpCounter.handler Rc.init (recvfrom (fun _ => 0) udpDatagram)
      udpDatagram.length = some rc ∧ ¬ Unchanged Rc.init rc) ∧
    (∃ rc, rcHandleData Counter.handler Rc.init (recvfrom (fun _ => 0) udpDatagram)
      udpDatagram.length = some rc ∧ ¬ Unchanged Rc.init rc) ∧
    ∃ rc rc', rcHandleData TcpCounter.handler Rc.init
        (recvfrom (fun _ => 0) (udpDatagram.take 24)) 24 = some rc ∧
      rcHandleData TcpCounter.handler Rc.init
        (recvfrom (fun _ => 1) (udpDatagram.take 24)) 24 = some rc' ∧
      rc.flow 7 9 ≠ rc'.flow 7 9 := by
  exact ⟨by decide, first_effect TcpCounter.keeps_plain _, first_effect Counter.keeps_sized _, _, _,
    rfl, rfl, by decide⟩

end DynBandwidth.Reorder.Datagram
