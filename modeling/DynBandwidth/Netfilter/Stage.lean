import DynBandwidth.Reorder.SeqTree
import Mathlib.Algebra.Order.Ring.Rat

/-! # The resequencing stage of `nfqueue.c` on one flow

The stage behind the early returns of `nfq_cb`, on the buffer of a flow: `resequence` is the lowest
first resequencing algorithm, `insertOrSendPacket` and `sendPacketAt` are the functions it calls.
Its results are the new buffer and the calls of `nfq_set_verdict`, in their order.

The branches are those of `resequence_cases`. The loop of the in-order branch sends the held packets
that start exactly at `expected_next` (`release_spec`). Every packet that comes in is held or gets a
verdict (`resequence_perm`), and the buffer never holds more than `FBUF_SIZ` packets
(`Sized.resequence`). -/

namespace DynBandwidth.Netfilter.Stage

open DynBandwidth.Lib.Serial DynBandwidth.Lib.RbTree
open DynBandwidth.Reorder.Header DynBandwidth.Reorder.SeqTree

def fbufSiz : U32 := 256

structure NfqFlowdata where
  seq : U32
  packetId : U32
  segSize : U16
  deriving DecidableEq, Repr

/-- A flow buffer. Its ports and its links are in the cell of the table that holds it. The `timer`
is the time at which it fires, if it is pending. -/
structure NfqFlowbuf where
  size : U32
  expectedNext : U32
  root : RbNode NfqFlowdata
  timeout : ℚ
  lastActivity : ℚ
  timer : Option ℚ
  deriving DecidableEq, Repr

/-- The packets a flow holds, as the tree lists them. -/
def NfqFlowbuf.held (fbuf : NfqFlowbuf) : List NfqFlowdata := fbuf.root.toList

/-- The ids of the packets a flow holds. -/
def NfqFlowbuf.ids (fbuf : NfqFlowbuf) : List U32 := fbuf.held.map NfqFlowdata.packetId

inductive Verdict
  | accept
  | drop
  deriving DecidableEq, Repr

/-- The handle of a queue; `none` is `NULL`. -/
abbrev QHandle := Option ℕ

/-- A call of `nfq_set_verdict`. -/
structure Call where
  queue : QHandle
  id : U32
  verdict : Verdict
  deriving DecidableEq, Repr

/-! ### The functions of the file -/

section Functions
variable (now : ℚ) (queue : QHandle)

/-- A retransmission replaces the held packet unless it is smaller. -/
def retransmit (packetId : U32) (segSize : U16) (curr : NfqFlowdata) : NfqFlowdata :=
  if curr.segSize > segSize then curr else { curr with packetId := packetId, segSize := segSize }

/-- The packet that is dropped for a retransmission: the new one or the held one. -/
def dropped (packetId : U32) (segSize : U16) (curr : NfqFlowdata) : U32 :=
  if curr.segSize > segSize then packetId else curr.packetId

/-- `insert_or_send_packet`. -/
def insertOrSendPacket (fbuf : NfqFlowbuf) (seq packetId : U32) (segSize : U16) :
    NfqFlowbuf × List Call :=
  match insertSeq NfqFlowdata.seq seq ⟨seq, packetId, segSize⟩ (retransmit packetId segSize)
    fbuf.root with
  | (root, some curr) =>
    ({ fbuf with root := root, lastActivity := now },
      [⟨queue, dropped packetId segSize curr, .drop⟩])
  | (root, none) =>
    ({ fbuf with size := fbuf.size + 1, root := root, lastActivity := now }, [])

/-- The larger of `expected_next` and the end of a packet, as unsigned numbers. -/
def raise (expectedNext seq : U32) (segSize : U16) : U32 :=
  if seqEnd seq segSize > expectedNext then seqEnd seq segSize else expectedNext

/-- `send_packet_at`, at the first node of the tree. -/
def sendPacketAt (fbuf : NfqFlowbuf) (fdata : NfqFlowdata) : NfqFlowbuf × Call :=
  ({ fbuf with
      expectedNext := raise fbuf.expectedNext fdata.seq fdata.segSize
      root := fbuf.root.eraseFirst
      lastActivity := now
      size := fbuf.size - 1 },
    ⟨queue, fdata.packetId, .accept⟩)

/-- The loop that sends the first packet as long as its number is `expected_next`. The number bounds
the rounds. -/
def release : ℕ → NfqFlowbuf → NfqFlowbuf × List Call
  | 0, fbuf => (fbuf, [])
  | n + 1, fbuf =>
    match fbuf.root.first with
    | none => (fbuf, [])
    | some d =>
      if d.seq == fbuf.expectedNext then
        ((release n (sendPacketAt now queue fbuf d).1).1,
          (sendPacketAt now queue fbuf d).2 :: (release n (sendPacketAt now queue fbuf d).1).2)
      else (fbuf, [])

/-- The loop of `empty_and_destroy_buf`, which sends all packets. -/
def flush : ℕ → NfqFlowbuf → NfqFlowbuf × List Call
  | 0, fbuf => (fbuf, [])
  | n + 1, fbuf =>
    match fbuf.root.first with
    | none => (fbuf, [])
    | some d =>
      ((flush n (sendPacketAt now queue fbuf d).1).1,
        (sendPacketAt now queue fbuf d).2 :: (flush n (sendPacketAt now queue fbuf d).1).2)

/-- `expected_next` after a packet that is sent on arrival. -/
def nextOnArrival (expectedNext : U32) (p : Packet) : U32 :=
  if p.syn then p.seq + 1 else raise expectedNext p.seq p.psize

/-- **The resequencing stage on the flow buffer of the packet**: the lowest first resequencing
algorithm. Every round of the loop removes a node, so the number of nodes bounds its rounds. -/
def resequence (fbuf : NfqFlowbuf) (id : U32) (p : Packet) : Option (NfqFlowbuf × List Call) :=
  if before p.seq fbuf.expectedNext || p.seq == fbuf.expectedNext then
    let r := release now queue fbuf.held.length
      { fbuf with expectedNext := nextOnArrival fbuf.expectedNext p, lastActivity := now }
    some (r.1, ⟨queue, id, .accept⟩ :: r.2)
  else if fbuf.size < fbufSiz then
    some (insertOrSendPacket now queue fbuf p.seq id p.psize)
  else
    match fbuf.root.first with
    | none => none
    | some first =>
      if first.seq ≤ p.seq then
        let s := sendPacketAt now queue fbuf first
        let r := insertOrSendPacket now queue s.1 p.seq id p.psize
        some (r.1, s.2 :: r.2)
      else some ({ fbuf with lastActivity := now }, [⟨queue, id, .accept⟩])

end Functions

/-! ### Insertion -/

section Insert
variable (now : ℚ) (queue : QHandle) (f : NfqFlowbuf) (seq packetId : U32) (segSize : U16)

theorem retransmit_seq (curr : NfqFlowdata) :
    (retransmit packetId segSize curr).seq = curr.seq := by
  unfold retransmit; split_ifs <;> rfl

@[simp] theorem insertOrSendPacket_expectedNext :
    (insertOrSendPacket now queue f seq packetId segSize).1.expectedNext = f.expectedNext := by
  unfold insertOrSendPacket; split <;> rfl

theorem insertOrSendPacket_timer :
    (insertOrSendPacket now queue f seq packetId segSize).1.timer = f.timer ∧
      (insertOrSendPacket now queue f seq packetId segSize).1.timeout = f.timeout := by
  unfold insertOrSendPacket; split <;> exact ⟨rfl, rfl⟩

theorem insertOrSendPacket_held : (insertOrSendPacket now queue f seq packetId segSize).1.held =
    (insertSeq NfqFlowdata.seq seq ⟨seq, packetId, segSize⟩ (retransmit packetId segSize)
      f.root).1.toList := by
  unfold insertOrSendPacket NfqFlowbuf.held; split <;> simp_all

theorem insertOrSendPacket_calls_of_none (h : (insertSeq NfqFlowdata.seq seq
    ⟨seq, packetId, segSize⟩ (retransmit packetId segSize) f.root).2 = none) :
    (insertOrSendPacket now queue f seq packetId segSize).2 = [] := by
  unfold insertOrSendPacket; split <;> simp_all

/-- **The branches of an insertion**: the packet gets a node, or it meets one with its number and
one of the two packets is dropped. -/
theorem insertOrSendPacket_cases :
    (∃ l r, f.held = l ++ r ∧
      (insertOrSendPacket now queue f seq packetId segSize).1.held =
        l ++ ⟨seq, packetId, segSize⟩ :: r ∧
      (insertOrSendPacket now queue f seq packetId segSize).2 = [] ∧
      (insertOrSendPacket now queue f seq packetId segSize).1.size = f.size + 1) ∨
    (∃ l x r, f.held = l ++ x :: r ∧ x.seq = seq ∧
      (insertOrSendPacket now queue f seq packetId segSize).1.held =
        l ++ retransmit packetId segSize x :: r ∧
      (insertOrSendPacket now queue f seq packetId segSize).2 =
        [⟨queue, dropped packetId segSize x, .drop⟩] ∧
      (insertOrSendPacket now queue f seq packetId segSize).1.size = f.size) := by
  rw [insertOrSendPacket_held]
  rcases insertSeq_cases NfqFlowdata.seq seq ⟨seq, packetId, segSize⟩ (retransmit packetId segSize)
    f.root with ⟨l, r, h1, h2, h3⟩ | ⟨l, x, r, h1, h2, h3, hx⟩
  · refine Or.inl ⟨l, r, h1, h2, ?_⟩
    unfold insertOrSendPacket
    split <;> simp_all
  · refine Or.inr ⟨l, x, r, h1, hx, h2, ?_⟩
    unfold insertOrSendPacket
    split <;> simp_all

/-- The size of the buffer after an insertion. -/
theorem insertOrSendPacket_size : ∃ n ≤ 1,
    (insertOrSendPacket now queue f seq packetId segSize).1.held.length = f.held.length + n ∧
    (insertOrSendPacket now queue f seq packetId segSize).1.size = f.size + BitVec.ofNat 32 n := by
  rcases insertOrSendPacket_cases now queue f seq packetId segSize with
    ⟨l, r, h1, h2, -, h4⟩ | ⟨l, x, r, h1, -, h2, -, h4⟩
  · refine ⟨1, le_rfl, ?_, h4⟩
    rw [h1, h2]
    simp
    omega
  · refine ⟨0, by omega, ?_, by simp [h4]⟩
    rw [h1, h2]
    simp

/-- The numbers held after an insertion. -/
theorem forall_insertOrSendPacket (P : U32 → Prop) :
    (∀ x ∈ (insertOrSendPacket now queue f seq packetId segSize).1.held, P x.seq) ↔
      P seq ∧ ∀ x ∈ f.held, P x.seq := by
  rw [insertOrSendPacket_held]
  have hnew : NfqFlowdata.seq ⟨seq, packetId, segSize⟩ = seq := rfl
  exact forall_insertSeq hnew (retransmit_seq packetId segSize) P

/-- **An insertion keeps or drops**: the new packet and the held ones are held afterwards, except
one that is dropped if the number was held already. -/
theorem insertOrSendPacket_perm : (packetId :: f.ids).Perm
    ((insertOrSendPacket now queue f seq packetId segSize).1.ids ++
      (insertOrSendPacket now queue f seq packetId segSize).2.map Call.id) := by
  rw [NfqFlowbuf.ids, NfqFlowbuf.ids]
  rcases insertOrSendPacket_cases now queue f seq packetId segSize with
    ⟨l, r, h1, h2, h3, -⟩ | ⟨l, x, r, h1, -, h2, h3, -⟩
  · rw [h1, h2, h3]
    simp only [List.map_append, List.map_cons, List.map_nil, List.append_nil]
    exact (List.perm_middle).symm
  · rw [h1, h2, h3]
    simp only [List.map_append, List.map_cons, List.map_nil]
    unfold retransmit dropped
    split_ifs
    · exact (List.perm_append_singleton _ _).symm
    · refine ((List.perm_append_singleton x.packetId _).trans ?_).symm
      exact (List.perm_middle.cons _).trans
        ((List.Perm.swap _ _ _).trans (List.perm_middle.symm.cons _))

end Insert

/-! ### The loops -/

section Loops
variable (now : ℚ) (queue : QHandle)

/-- The call that accepts a held packet. -/
def accepted (d : NfqFlowdata) : Call := ⟨queue, d.packetId, .accept⟩

/-- The packets at the front of a list that start at `e` and, one after another, at the number
raised by the one before, and the packets behind them. -/
def chain : U32 → List NfqFlowdata → List NfqFlowdata × List NfqFlowdata
  | _, [] => ([], [])
  | e, d :: ds =>
    if d.seq == e then
      (d :: (chain (raise e d.seq d.segSize) ds).1, (chain (raise e d.seq d.segSize) ds).2)
    else ([], d :: ds)

/-- `expected_next` raised by the packets of a list. -/
def reach : U32 → List NfqFlowdata → U32
  | e, [] => e
  | e, d :: ds => reach (raise e d.seq d.segSize) ds

theorem chain_append : ∀ (e : U32) (ds : List NfqFlowdata), (chain e ds).1 ++ (chain e ds).2 = ds
  | _, [] => rfl
  | e, d :: ds => by
    rw [chain]
    split_ifs
    · simp [chain_append]
    · rfl

@[simp] theorem sendPacketAt_held (f : NfqFlowbuf) (d : NfqFlowdata) :
    (sendPacketAt now queue f d).1.held = f.held.tail := by simp [sendPacketAt, NfqFlowbuf.held]

theorem sub_ofNat_succ (a : U32) (n : ℕ) :
    a - 1 - BitVec.ofNat 32 n = a - BitVec.ofNat 32 (n + 1) := by
  rw [BitVec.ofNat_add, sub_sub, add_comm]; rfl

/-- **What the loop of the stage does**: it accepts the chain from `expected_next`. -/
theorem release_spec : ∀ (n : ℕ) (f : NfqFlowbuf), f.held.length ≤ n →
    (release now queue n f).2 = (chain f.expectedNext f.held).1.map (accepted queue) ∧
    (release now queue n f).1.held = (chain f.expectedNext f.held).2 ∧
    (release now queue n f).1.expectedNext =
      reach f.expectedNext (chain f.expectedNext f.held).1 ∧
    (release now queue n f).1.size =
      f.size - BitVec.ofNat 32 (chain f.expectedNext f.held).1.length ∧
    (release now queue n f).1.timer = f.timer ∧ (release now queue n f).1.timeout = f.timeout
  | 0, f, hn => by
    have hnil : f.held = [] := List.eq_nil_of_length_eq_zero (by omega)
    simp [release, hnil, chain, reach]
  | n + 1, f, hn => by
    rw [release, show f.root.first = f.held.head? from first_eq_head? f.root]
    rcases hheld : f.held with _ | ⟨d, ds⟩
    · simp [chain, reach, hheld]
    · simp only [List.head?_cons, chain]
      split_ifs with hd
      · have htail : (sendPacketAt now queue f d).1.held = ds := by simp [hheld]
        obtain ⟨h1, h2, h3, h4, h5⟩ := release_spec n (sendPacketAt now queue f d).1
          (by rw [htail]; rw [hheld] at hn; simpa using hn)
        rw [htail] at h1 h2 h3 h4
        refine ⟨by rw [h1]; rfl, h2, h3, ?_, h5⟩
        rw [h4, List.length_cons, ← sub_ofNat_succ]
        rfl
      · simp [reach, hheld]

/-- **What the loop of `empty_and_destroy_buf` does**: it accepts all held packets. -/
theorem flush_spec : ∀ (n : ℕ) (f : NfqFlowbuf), f.held.length ≤ n →
    (flush now queue n f).2 = f.held.map (accepted queue) ∧ (flush now queue n f).1.held = [] ∧
    (flush now queue n f).1.timer = f.timer
  | 0, f, hn => by
    have hnil : f.held = [] := List.eq_nil_of_length_eq_zero (by omega)
    simp [flush, hnil]
  | n + 1, f, hn => by
    rw [flush, show f.root.first = f.held.head? from first_eq_head? f.root]
    rcases hheld : f.held with _ | ⟨d, ds⟩
    · simp [hheld]
    · simp only [List.head?_cons]
      have htail : (sendPacketAt now queue f d).1.held = ds := by simp [hheld]
      obtain ⟨h1, h2, h3⟩ := flush_spec n (sendPacketAt now queue f d).1
        (by rw [htail]; rw [hheld] at hn; simpa using hn)
      rw [htail] at h1
      exact ⟨by rw [h1]; rfl, h2, h3⟩

end Loops

/-! ### The branches -/

section Branches
variable {now : ℚ} {queue : QHandle} {f f' : NfqFlowbuf} {id : U32} {p : Packet} {calls : List Call}

/-- **The branches of the stage** on a flow buffer. -/
theorem resequence_cases (h : resequence now queue f id p = some (f', calls)) :
    (sdist p.seq f.expectedNext ≤ 0 ∧ ∃ sent rest,
      chain (nextOnArrival f.expectedNext p) f.held = (sent, rest) ∧
      calls = ⟨queue, id, .accept⟩ :: sent.map (accepted queue) ∧ f'.held = rest ∧
      f'.expectedNext = reach (nextOnArrival f.expectedNext p) sent ∧
      f'.size = f.size - BitVec.ofNat 32 sent.length ∧ f'.timer = f.timer ∧
      f'.timeout = f.timeout) ∨
    (0 < sdist p.seq f.expectedNext ∧ f.size < fbufSiz ∧
      f' = (insertOrSendPacket now queue f p.seq id p.psize).1 ∧
      calls = (insertOrSendPacket now queue f p.seq id p.psize).2) ∨
    (0 < sdist p.seq f.expectedNext ∧ ¬ f.size < fbufSiz ∧ ∃ d ds, f.held = d :: ds ∧
      d.seq ≤ p.seq ∧
      f' = (insertOrSendPacket now queue (sendPacketAt now queue f d).1 p.seq id p.psize).1 ∧
      calls = accepted queue d ::
        (insertOrSendPacket now queue (sendPacketAt now queue f d).1 p.seq id p.psize).2) ∨
    (0 < sdist p.seq f.expectedNext ∧ ¬ f.size < fbufSiz ∧ (∃ d ds, f.held = d :: ds ∧
      ¬ d.seq ≤ p.seq) ∧ f' = { f with lastActivity := now } ∧ calls = [⟨queue, id, .accept⟩]) := by
  unfold resequence at h
  split_ifs at h with h1 h2
  · left
    obtain ⟨r1, r2, r3, r4, r5⟩ := release_spec now queue f.held.length
      { f with expectedNext := nextOnArrival f.expectedNext p, lastActivity := now } le_rfl
    simp only [Option.some.injEq, Prod.mk.injEq] at h
    obtain ⟨rfl, rfl⟩ := h
    exact ⟨le_iff_sdist.mp h1, _, _, rfl, by rw [r1]; rfl, r2, r3, r4, r5⟩
  · right; left
    simp only [Option.some.injEq] at h
    exact ⟨sdist_pos_of_not_le h1, h2, by rw [h], by rw [h]⟩
  · right; right
    have hgt := sdist_pos_of_not_le h1
    rw [show f.root.first = f.held.head? from first_eq_head? f.root] at h
    rcases hheld : f.held with _ | ⟨d, ds⟩
    · rw [hheld] at h; simp at h
    · rw [hheld] at h
      simp only [List.head?_cons] at h
      split_ifs at h with h3
      · left
        simp only [Option.some.injEq, Prod.mk.injEq] at h
        exact ⟨hgt, h2, d, ds, rfl, h3, h.1.symm, h.2.symm⟩
      · right
        simp only [Option.some.injEq, Prod.mk.injEq] at h
        exact ⟨hgt, h2, ⟨d, ds, rfl, h3⟩, h.1.symm, h.2.symm⟩

/-- **The stage leaves the timer and the timeout alone.** -/
theorem resequence_timer (h : resequence now queue f id p = some (f', calls)) :
    f'.timer = f.timer ∧ f'.timeout = f.timeout := by
  rcases resequence_cases h with ⟨-, sent, rest, -, -, -, -, -, htimer⟩ | ⟨-, -, rfl, -⟩ |
    ⟨-, -, d, ds, -, -, rfl, -⟩ | ⟨-, -, -, rfl, -⟩
  · exact htimer
  · exact insertOrSendPacket_timer ..
  · exact insertOrSendPacket_timer ..
  · exact ⟨rfl, rfl⟩

/-- The buffer on which the stage calls `insert_or_send_packet`, if it does. -/
def insertion (now : ℚ) (queue : QHandle) (fbuf : NfqFlowbuf) (p : Packet) : Option NfqFlowbuf :=
  if before p.seq fbuf.expectedNext || p.seq == fbuf.expectedNext then none
  else if fbuf.size < fbufSiz then some fbuf
  else
    match fbuf.root.first with
    | none => none
    | some first => if first.seq ≤ p.seq then some (sendPacketAt now queue fbuf first).1 else none

/-- **When the packet is inserted**: it is behind `expected_next`, and there is room, or a full
buffer has sent its lowest packet. -/
theorem insertion_eq_some {g : NfqFlowbuf} : insertion now queue f p = some g ↔
    0 < sdist p.seq f.expectedNext ∧ ((f.size < fbufSiz ∧ g = f) ∨
      (¬ f.size < fbufSiz ∧ ∃ d ds, f.held = d :: ds ∧ d.seq ≤ p.seq ∧
        g = (sendPacketAt now queue f d).1)) := by
  unfold insertion
  split_ifs with hle hlt
  · have := le_iff_sdist.mp hle
    simp
    omega
  · have := sdist_pos_of_not_le hle
    simp [this, hlt, eq_comm]
  · have := sdist_pos_of_not_le hle
    rw [show f.root.first = f.held.head? from first_eq_head? f.root]
    rcases hheld : f.held with _ | ⟨d, ds⟩
    · simp [hlt]
    · simp only [List.head?_cons, List.cons.injEq, hlt, this]
      split_ifs with hlow
      · simp [hlow, eq_comm]
      · simp [hlow]

/-- What is held at an insertion was held before. -/
theorem mem_of_insertion {g : NfqFlowbuf} (h : insertion now queue f p = some g) {x : NfqFlowdata}
    (hx : x ∈ g.held) : x ∈ f.held := by
  obtain ⟨-, ⟨-, rfl⟩ | ⟨-, d, ds, hheld, -, rfl⟩⟩ := insertion_eq_some.mp h
  · exact hx
  · rw [sendPacketAt_held] at hx
    exact List.mem_of_mem_tail hx

/-- **Sending, then inserting**: the packets sent are the first of those held. The arriving packet
is inserted behind them, or accepted before them. -/
theorem resequence_split (h : resequence now queue f id p = some (f', calls)) :
    ∃ sent kept, f.held = sent ++ kept ∧
      ((insertion now queue f p = none ∧ f'.held = kept ∧
          calls = ⟨queue, id, .accept⟩ :: sent.map (accepted queue)) ∨
        ∃ g, insertion now queue f p = some g ∧ g.held = kept ∧
          f' = (insertOrSendPacket now queue g p.seq id p.psize).1 ∧
          calls = sent.map (accepted queue) ++
            (insertOrSendPacket now queue g p.seq id p.psize).2) := by
  unfold insertion
  rcases resequence_cases h with ⟨hle, sent, rest, hchain, rfl, hheld, -⟩ | ⟨hgt, hlt, rfl, rfl⟩ |
    ⟨hgt, hnlt, d, ds, hheld, hlow, rfl, rfl⟩ | ⟨hgt, hnlt, ⟨d, ds, hheld, hlow⟩, rfl, rfl⟩
  · have happ := chain_append (nextOnArrival f.expectedNext p) f.held
    rw [hchain] at happ
    rw [if_pos (le_iff_sdist.mpr hle)]
    exact ⟨sent, rest, happ.symm, Or.inl ⟨rfl, hheld, rfl⟩⟩
  · rw [if_neg (mt le_iff_sdist.mp (not_le.mpr hgt)), if_pos hlt]
    exact ⟨[], f.held, rfl, Or.inr ⟨f, rfl, rfl, rfl, rfl⟩⟩
  · rw [if_neg (mt le_iff_sdist.mp (not_le.mpr hgt)), if_neg hnlt,
      show f.root.first = f.held.head? from first_eq_head? f.root, hheld]
    refine ⟨[d], ds, rfl, Or.inr ⟨(sendPacketAt now queue f d).1, if_pos hlow, ?_, rfl, rfl⟩⟩
    rw [sendPacketAt_held, hheld, List.tail_cons]
  · rw [if_neg (mt le_iff_sdist.mp (not_le.mpr hgt)), if_neg hnlt,
      show f.root.first = f.held.head? from first_eq_head? f.root, hheld]
    exact ⟨[], d :: ds, rfl, Or.inl ⟨if_neg hlow, hheld, rfl⟩⟩

/-- **The tree stays ascending** if the packet, should it be inserted, is near all numbers held at
that moment. -/
theorem ascending_resequence (ha : Ascending NfqFlowdata.seq f.held)
    (hn : ∀ g, insertion now queue f p = some g → ∀ x ∈ g.held, Near p.seq x.seq)
    (h : resequence now queue f id p = some (f', calls)) : Ascending NfqFlowdata.seq f'.held := by
  obtain ⟨sent, kept, hheld, hcase⟩ := resequence_split h
  rw [hheld] at ha
  rcases hcase with ⟨-, hkept, -⟩ | ⟨g, hg, hkept, rfl, -⟩
  · rw [hkept]
    exact ha.append_right
  · rw [insertOrSendPacket_held]
    refine ascending_insertSeq ?_ (hn g hg) rfl (retransmit_seq _ _)
    rw [← NfqFlowbuf.held, hkept]
    exact ha.append_right

theorem map_id_accepted (queue : QHandle) (l : List NfqFlowdata) :
    (l.map (accepted queue)).map Call.id = l.map NfqFlowdata.packetId := by
  rw [List.map_map]; rfl

/-- **Every packet is held or gets a verdict**: the arriving packet and the held ones are, once
each, the packets held afterwards and those of the calls. -/
theorem resequence_perm (h : resequence now queue f id p = some (f', calls)) :
    (id :: f.ids).Perm (f'.ids ++ calls.map Call.id) := by
  rcases resequence_cases h with ⟨-, sent, rest, hchain, rfl, hheld, -⟩ | ⟨-, -, rfl, rfl⟩ |
    ⟨-, -, d, ds, hheld, -, rfl, rfl⟩ | ⟨-, -, -, rfl, rfl⟩
  · have happ := chain_append (nextOnArrival f.expectedNext p) f.held
    rw [hchain] at happ
    rw [NfqFlowbuf.ids, NfqFlowbuf.ids, hheld, ← happ, List.map_cons, map_id_accepted,
      List.map_append]
    exact ((List.perm_append_comm.cons id).trans List.perm_middle.symm)
  · exact insertOrSendPacket_perm ..
  · have hperm := insertOrSendPacket_perm now queue (sendPacketAt now queue f d).1 p.seq id p.psize
    have hids : f.ids = d.packetId :: (sendPacketAt now queue f d).1.ids := by
      simp [NfqFlowbuf.ids, hheld]
    rw [hids, List.map_cons]
    exact (List.Perm.swap _ _ _).trans ((hperm.cons d.packetId).trans List.perm_middle.symm)
  · exact (List.perm_append_singleton id f.ids).symm

end Branches

/-! ### The size of the buffer -/

/-- The stored size is the number of nodes, at most `FBUF_SIZ`. -/
def Sized (f : NfqFlowbuf) : Prop := f.size = BitVec.ofNat 32 f.held.length ∧ f.held.length ≤ 256

section Size
variable {f : NfqFlowbuf} (h : Sized f)
include h

theorem Sized.lt_iff : f.size < fbufSiz ↔ f.held.length < 256 := by
  have hlen := h.2
  rw [h.1, fbufSiz, BitVec.lt_def, BitVec.toNat_ofNat, Nat.mod_eq_of_lt (by omega)]
  rfl

theorem Sized.eq_iff : f.size = fbufSiz ↔ ¬ f.size < fbufSiz := by
  have hlen := h.2
  constructor
  · intro heq
    rw [heq]
    exact BitVec.lt_irrefl _
  · intro hlt
    rw [h.lt_iff] at hlt
    rw [h.1, show f.held.length = 256 by omega]
    rfl

theorem Sized.insert (now : ℚ) (queue : QHandle) (hlt : f.held.length < 256) (seq packetId : U32)
    (segSize : U16) : Sized (insertOrSendPacket now queue f seq packetId segSize).1 := by
  obtain ⟨n, hn, hlen, hsize⟩ := insertOrSendPacket_size now queue f seq packetId segSize
  refine ⟨?_, by omega⟩
  rw [hsize, hlen, h.1, BitVec.ofNat_add]

theorem Sized.send (now : ℚ) (queue : QHandle) {d : NfqFlowdata} {ds : List NfqFlowdata}
    (hheld : f.held = d :: ds) : Sized (sendPacketAt now queue f d).1 := by
  have hlen := h.2
  rw [hheld, List.length_cons] at hlen
  refine ⟨?_, ?_⟩
  · rw [sendPacketAt_held, hheld, List.tail_cons,
      show (sendPacketAt now queue f d).1.size = f.size - 1 from rfl, h.1, hheld, List.length_cons,
      BitVec.ofNat_add]
    exact add_sub_cancel_right _ _
  · rw [sendPacketAt_held, hheld, List.tail_cons]
    omega

/-- **A full buffer is not empty**: on a sized buffer the stage does not fault, and the buffer stays
sized. -/
theorem Sized.resequence (now : ℚ) (queue : QHandle) (id : U32) (p : Packet) :
    ∃ f' calls, Stage.resequence now queue f id p = some (f', calls) ∧ Sized f' := by
  have hdef : ∃ f' calls, Stage.resequence now queue f id p = some (f', calls) := by
    unfold Stage.resequence
    split_ifs with h1 h2
    · exact ⟨_, _, rfl⟩
    · exact ⟨_, _, rfl⟩
    · rw [show f.root.first = f.held.head? from first_eq_head? f.root]
      rcases hheld : f.held with _ | ⟨d, ds⟩
      · exact absurd (h.lt_iff.mpr (by rw [hheld]; decide)) h2
      · simp only [List.head?_cons]
        split_ifs <;> exact ⟨_, _, rfl⟩
  obtain ⟨f', calls, hr⟩ := hdef
  have hlen := h.2
  refine ⟨f', calls, hr, ?_⟩
  rcases resequence_cases hr with
    ⟨-, sent, rest, hchain, -, hheld, -, hsize, -⟩ | ⟨-, hlt, rfl, -⟩ |
    ⟨-, -, d, ds, hheld, -, rfl, -⟩ | ⟨-, -, -, rfl, -⟩
  · have happ := congrArg List.length (chain_append (nextOnArrival f.expectedNext p) f.held)
    rw [hchain, List.length_append] at happ
    dsimp only at happ
    refine ⟨?_, by rw [hheld]; omega⟩
    rw [hsize, hheld, h.1, ← happ, Nat.add_comm, BitVec.ofNat_add]
    exact add_sub_cancel_right _ _
  · exact h.insert now queue (h.lt_iff.mp hlt) _ _ _
  · refine (h.send now queue hheld).insert now queue ?_ _ _ _
    rw [sendPacketAt_held, hheld, List.tail_cons]
    rw [hheld, List.length_cons] at hlen
    omega
  · exact h

end Size

end DynBandwidth.Netfilter.Stage
