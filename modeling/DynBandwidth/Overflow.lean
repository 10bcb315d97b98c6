import DynBandwidth.Netfilter.Window
import DynBandwidth.Reorder.CounterStream

/-! # Full buffers

When a packet behind `expected_next` reaches a full buffer, both resequencers send the lowest
packet: the first one of the tree, or the arriving one. The tree is ordered by `before`, but the two
are compared as plain numbers. So the serial-least packet leaves if and only if the plain comparison
agrees with `before`, that is, unless the end of the sequence space lies between them
(`overflow_iff`).

Everything here is said relative to the arriving packet: the numbers are near its own, so their
order is that of their distances from it. In every state that can be reached, neighbours in the tree
are in order (`Stepwise`), and then the first packet is the serial-least one held unless two held
numbers are exactly half a turn apart (`Stepwise.first_least`). -/

namespace DynBandwidth.Overflow

open DynBandwidth.Lib.Serial DynBandwidth.Lib.RbTree DynBandwidth.Lib.Runs
open DynBandwidth.Reorder.Header DynBandwidth.Reorder.SeqTree DynBandwidth.Netfilter.Window

/-! ### The serial-least packet -/

section Least
variable {α : Type} (seqOf : α → U32) {seq : U32} {new m e : α} {held held' rest : List α}

/-- The serial-least of a list of packets near `seq`. -/
def Least (seq : U32) (e : α) (xs : List α) : Prop :=
  e ∈ xs ∧ ∀ x ∈ xs, sdist (seqOf e) seq ≤ sdist (seqOf x) seq

/-- **Lowest first**: of the held packets and the new one, all but the serial-least are held
afterwards. -/
def LeastLeaves [DecidableEq α] (seq : U32) (new : α) (held held' : List α) (e : α) : Prop :=
  Least seqOf seq e (new :: held) ∧ held'.Perm ((new :: held).erase e)

variable {seqOf}

theorem leastLeaves_iff [DecidableEq α] {gone : α} (h : (gone :: held').Perm (new :: held)) :
    LeastLeaves seqOf seq new held held' e ↔ e = gone ∧ Least seqOf seq gone (new :: held) := by
  constructor
  · rintro ⟨hleast, hperm⟩
    have hback := (List.perm_cons_erase hleast.1).symm
    have hcons : (e :: held').Perm (gone :: held') := ((hperm.cons e).trans hback).trans h.symm
    obtain rfl : e = gone := (Multiset.cons_inj_left (held' : Multiset α)).mp
      (Multiset.coe_eq_coe.mpr hcons)
    exact ⟨rfl, hleast⟩
  · rintro ⟨rfl, hleast⟩
    exact ⟨hleast, ((h.trans (List.perm_cons_erase hleast.1))).cons_inv⟩

/-- If the first packets leave and the new one is not stored, lowest first means that none of them
does. -/
theorem leastLeaves_suffix [DecidableEq α] {sent : List α} (h : held = sent ++ held') :
    LeastLeaves seqOf seq new held held' e ↔
      e = new ∧ sent = [] ∧ Least seqOf seq new (new :: held) := by
  have hnil : sent = [] → (LeastLeaves seqOf seq new held held' e ↔
      e = new ∧ Least seqOf seq new (new :: held)) := by
    rintro rfl
    exact leastLeaves_iff (by rw [h]; rfl)
  constructor
  · intro he
    have hlen := he.2.length_eq
    rw [List.length_erase_of_mem he.1.1, List.length_cons, h, List.length_append] at hlen
    have hsent : sent = [] := List.eq_nil_of_length_eq_zero (by omega)
    obtain ⟨hnew, hleast⟩ := (hnil hsent).mp he
    exact ⟨hnew, hsent, hleast⟩
  · rintro ⟨hnew, hsent, hleast⟩
    exact (hnil hsent).mpr ⟨hnew, hleast⟩

/-- The new packet is the serial-least one, or the first held one is: what this means for the first
one. -/
theorem least_new_iff (hnew : seqOf new = seq) (hs : Stepwise seqOf (m :: rest))
    (hn : ∀ x ∈ m :: rest, Near (seqOf x) seq) :
    Least seqOf seq new (new :: m :: rest) ↔
      (∀ x ∈ m :: rest, sdist (seqOf m) seq ≤ sdist (seqOf x) seq) ∧
        before (seqOf m) seq = false := by
  rw [not_before_iff]
  constructor
  · rintro ⟨-, hleast⟩
    have hpos : ∀ x ∈ m :: rest, 0 ≤ sdist (seqOf x) seq := fun x hx => by
      have h := hleast x (List.mem_cons_of_mem _ hx)
      rwa [hnew, sdist_self] at h
    refine ⟨hs.first_least hn fun x _ y hy _ => ?_, hpos m (by simp)⟩
    have := hpos y hy
    omega
  · rintro ⟨hle, hpos⟩
    refine ⟨by simp, fun x hx => ?_⟩
    rw [hnew, sdist_self]
    rcases List.mem_cons.mp hx with rfl | hx
    · rw [hnew, sdist_self]
    · exact hpos.trans (hle x hx)

theorem least_first_iff (hnew : seqOf new = seq) (hne : ∀ x ∈ m :: rest, seqOf x ≠ seq) :
    Least seqOf seq m (new :: m :: rest) ↔
      (∀ x ∈ m :: rest, sdist (seqOf m) seq ≤ sdist (seqOf x) seq) ∧
        before (seqOf m) seq = true := by
  have hm : sdist (seqOf m) seq ≠ 0 := fun h => hne m (by simp) (sdist_eq_zero.mp h)
  rw [before_iff]
  constructor
  · rintro ⟨-, hleast⟩
    have h := hleast new (by simp)
    rw [hnew, sdist_self] at h
    exact ⟨fun x hx => hleast x (List.mem_cons_of_mem _ hx), by omega⟩
  · rintro ⟨hle, hneg⟩
    refine ⟨by simp, fun x hx => ?_⟩
    rcases List.mem_cons.mp hx with rfl | hx
    · rw [hnew, sdist_self]
      exact hneg.le
    · exact hle x hx

/-- An insertion of a number that is not held adds the packet. -/
theorem perm_insertSeq {t : RbNode α} (new : α) (hne : ∀ x ∈ t.toList, seqOf x ≠ seq)
    (merge : α → α) : (insertSeq seqOf seq new merge t).1.toList.Perm (new :: t.toList) ∧
      (insertSeq seqOf seq new merge t).2 = none := by
  rcases insertSeq_cases seqOf seq new merge t with ⟨l, r, h1, h2, h3⟩ | ⟨l, x, r, h1, -, -, hx⟩
  · rw [h1, h2]
    exact ⟨List.perm_middle, h3⟩
  · exact absurd hx (hne x (by rw [h1]; simp))

/-- Behind `expected_next` and not strictly after it: exactly half a turn. -/
theorem before_of_behind {seq e : U32} (h : after seq e = true) (hle : sdist seq e ≤ 0) :
    before seq e = true := by
  rw [before_iff]
  rw [after, before_iff] at h
  rcases hle.lt_or_eq with hlt | heq
  · exact hlt
  · rw [sdist_eq_zero.mp heq, sdist_self] at h
    omega

end Least

/-! ### `reorder_counter.c` -/

namespace Counter
open DynBandwidth.Reorder.Flows DynBandwidth.Reorder.Counter

/-- What a packet meets in a full buffer: its number is behind `expected_next`, near every held
number and none of them. -/
structure Overflows (f : RcFlowbuf) (p : Packet) : Prop where
  full : f.size = fbufSiz
  behind : after p.seq f.expectedNext = true
  near : ∀ x ∈ f.held, Near x.seq p.seq
  new : ∀ x ∈ f.held, x.seq ≠ p.seq

/-- The first packet of the tree is the serial-least one held, and its plain comparison with the
arriving packet agrees with `before`. A packet exactly half a turn behind `expected_next` is also
before it, so that it is sent and the loop runs: then the packet must be the serial-least one, and
the first one of the tree not be due. -/
def Agrees (f : RcFlowbuf) (p : Packet) (lowest : RcFlowdata) : Prop :=
  (∀ x ∈ f.held, sdist lowest.seq p.seq ≤ sdist x.seq p.seq) ∧
    if before p.seq f.expectedNext then
      before lowest.seq p.seq = false ∧ due (nextAfter p) lowest.seq = false
    else (lowest.seq ≤ p.seq ↔ before lowest.seq p.seq = true)

/-- The packet makes the serial-least segment leave. -/
def LowestFirst (rc : Rc) (p : Packet) (f : RcFlowbuf) : Prop := ∃ rc' f' least,
  rcHandlePacket rc p = some rc' ∧ rc'.flow p.sport p.dport = some f' ∧
    LeastLeaves RcFlowdata.seq p.seq ⟨p.seq, p.psize⟩ f.held f'.held least

def Kept (f : RcFlowbuf) : Prop := Sized f ∧ Stepwise RcFlowdata.seq f.held

theorem keeps_kept : handler.Keeps Kept where
  fresh p := ⟨keeps_sized.fresh p, List.IsChain.nil⟩
  step f p hf := by
    obtain ⟨f', e, h, hsized⟩ := keeps_sized.step f p hf.1
    refine ⟨f', e, h, hsized, ?_⟩
    obtain ⟨kept, hheld, hcase⟩ := lowestFirst_split h
    have hkept : Stepwise RcFlowdata.seq kept := by
      have hs := hf.2
      rw [hheld] at hs
      exact (List.isChain_append.mp hs).2.1
    rcases hcase with ⟨-, rfl, -⟩ | ⟨g, -, rfl, rfl, -⟩
    · exact hkept
    · rw [insertOrSendPacket_held]
      exact stepwise_insertSeq hkept rfl (retransmit_seq p.psize)

theorem chain_eq_nil {e : U32} {d : RcFlowdata} {ds : List RcFlowdata} :
    (chain e (d :: ds)).1 = [] ↔ due e d.seq = false := by
  rw [chain, ← due]
  cases due e d.seq <;> simp

/-- **One packet at a full buffer.** -/
theorem leaves_iff {f f' : RcFlowbuf} {p : Packet} {e : Effect} (hk : Kept f) (ho : Overflows f p)
    (h : lowestFirst f p = some (f', e)) {lowest : RcFlowdata} {rest : List RcFlowdata}
    (hheld : f.held = lowest :: rest) :
    (∃ least, LeastLeaves RcFlowdata.seq p.seq ⟨p.seq, p.psize⟩ f.held f'.held least) ↔
      Agrees f p lowest := by
  obtain ⟨hfull, hbehind, hnear, hne⟩ := ho
  have hstep := hk.2
  have hnew : RcFlowdata.seq ⟨p.seq, p.psize⟩ = p.seq := rfl
  unfold Agrees
  rw [hheld] at hnear hne hstep ⊢
  rcases lowestFirst_cases h with ⟨hle, -, hheld', -, -⟩ | ⟨-, hlt, -⟩ |
    ⟨hgt, -, d, ds, hd, hlow, rfl, -⟩ | ⟨hgt, -, ⟨d, ds, hd, hlow⟩, rfl, -⟩
  · have hb := before_of_behind hbehind hle
    have happ := chain_append (nextAfter p) f.held
    rw [← hheld', hheld] at happ
    simp only [leastLeaves_suffix happ.symm]
    rw [if_pos hb, exists_eq_left, chain_eq_nil, least_new_iff hnew hstep hnear, and_left_comm,
      and_comm (a := due _ _ = false)]
  · rw [hfull] at hlt
    exact absurd hlt (BitVec.lt_irrefl _)
  · rw [hheld] at hd
    cases hd
    have hb : ¬ before p.seq f.expectedNext = true := by rw [before_iff]; omega
    have hrest : (sendPacketAt f lowest).held = rest := by rw [sendPacketAt_held, hheld]; rfl
    have hne' : ∀ x ∈ (sendPacketAt f lowest).root.toList, x.seq ≠ p.seq := fun x hx =>
      hne x (List.mem_cons_of_mem _ (hrest ▸ hx))
    have hperm := (perm_insertSeq ⟨p.seq, p.psize⟩ hne' (retransmit p.psize)).1
    rw [← insertOrSendPacket_held, ← RcFlowbuf.held, hrest] at hperm
    rw [if_neg hb, iff_true_left hlow]
    simp only [leastLeaves_iff ((hperm.cons lowest).trans (List.Perm.swap _ _ _))]
    rw [exists_eq_left, least_first_iff hnew hne]
  · rw [hheld] at hd
    cases hd
    have hb : ¬ before p.seq f'.expectedNext = true := by rw [before_iff]; omega
    rw [if_neg hb, iff_false_left hlow, Bool.not_eq_true]
    simp only [hheld, leastLeaves_iff (List.Perm.refl _)]
    rw [exists_eq_left, least_new_iff hnew hstep hnear]

/-- **A packet at a full buffer of the counter**: the serial-least segment leaves if and only if
the plain comparison agrees. -/
theorem lowestFirst_iff {rc : Rc} (hall : rc.All Kept) {p : Packet} {f : RcFlowbuf}
    (hflow : rc.flow p.sport p.dport = some f) (ho : Overflows f p) :
    ∃ lowest, f.root.first = some lowest ∧ (LowestFirst rc p f ↔ Agrees f p lowest) := by
  have hk := hall.2 _ _ f hflow
  obtain ⟨lowest, rest, hheld⟩ : ∃ lowest rest, f.held = lowest :: rest := by
    refine List.exists_cons_of_ne_nil fun hnil => (hk.1.eq_iff.mp ho.full) ?_
    rw [hk.1.lt_iff, hnil]
    decide
  obtain ⟨f', e, hstep, -⟩ := keeps_kept.step f p hk
  obtain ⟨rc', hr, -, hat, -⟩ := rcHandlePacket_spec handler hall.1 (p := p)
    (by rw [hflow]; exact hstep)
  refine ⟨lowest, by rw [first_eq_head?, ← RcFlowbuf.held, hheld]; rfl, ?_⟩
  rw [← leaves_iff hk ho hstep hheld]
  constructor
  · rintro ⟨rc1, f1, least, hr1, hat1, hleaves⟩
    rw [show rcHandlePacket rc p = some rc' from hr, Option.some.injEq] at hr1
    rw [← hr1, hat] at hat1
    cases hat1
    exact ⟨least, hleaves⟩
  · rintro ⟨least, hleaves⟩
    exact ⟨rc', f', least, hr, hat, hleaves⟩

end Counter

/-! ### `nfqueue.c` -/

namespace Queue
open DynBandwidth.Netfilter.Stage DynBandwidth.Netfilter.Queue

/-- What a packet meets in a full buffer: its number is behind `expected_next`, near every held
number and none of them. -/
structure Overflows (f : NfqFlowbuf) (p : Packet) : Prop where
  full : f.size = fbufSiz
  behind : after p.seq f.expectedNext = true
  near : ∀ x ∈ f.held, Near x.seq p.seq
  new : ∀ x ∈ f.held, x.seq ≠ p.seq

/-- As for the counter, but for the packets that the loop sends. -/
def Agrees (f : NfqFlowbuf) (p : Packet) (lowest : NfqFlowdata) : Prop :=
  (∀ x ∈ f.held, sdist lowest.seq p.seq ≤ sdist x.seq p.seq) ∧
    if before p.seq f.expectedNext then
      before lowest.seq p.seq = false ∧ lowest.seq ≠ nextOnArrival f.expectedNext p
    else (lowest.seq ≤ p.seq ↔ before lowest.seq p.seq = true)

/-- The packet makes the serial-least packet leave, which is the one accepted. -/
def LowestFirst (nfq : Nfq) (a : Arrival) (f : NfqFlowbuf) : Prop := ∃ nfq' f' least,
  stage a nfq = some nfq' ∧ nfq'.flow a.pkt.sport a.pkt.dport = some f' ∧
    LeastLeaves NfqFlowdata.seq a.pkt.seq ⟨a.pkt.seq, a.id, a.pkt.psize⟩ f.held f'.held least ∧
    nfq'.calls = nfq.calls ++ [⟨a.queue, least.packetId, .accept⟩]

def Kept (f : NfqFlowbuf) : Prop := Sized f ∧ Stepwise NfqFlowdata.seq f.held

section Stage
variable {now : ℚ} {queue : QHandle} {f f' : NfqFlowbuf} {id : U32} {p : Packet} {calls : List Call}

theorem kept_resequence (hf : Kept f) (now : ℚ) (queue : QHandle) (id : U32) (p : Packet) :
    ∃ f' calls, resequence now queue f id p = some (f', calls) ∧ Kept f' := by
  obtain ⟨f', calls, h, hsized⟩ := hf.1.resequence now queue id p
  refine ⟨f', calls, h, hsized, ?_⟩
  obtain ⟨sent, kept, hheld, hcase⟩ := resequence_split h
  have hkept : Stepwise NfqFlowdata.seq kept := by
    have hs := hf.2
    rw [hheld] at hs
    exact (List.isChain_append.mp hs).2.1
  rcases hcase with ⟨-, rfl, -⟩ | ⟨g, -, rfl, rfl, -⟩
  · exact hkept
  · rw [insertOrSendPacket_held]
    exact stepwise_insertSeq hkept rfl (retransmit_seq id p.psize)

theorem chain_eq_nil {e : U32} {d : NfqFlowdata} {ds : List NfqFlowdata} :
    (chain e (d :: ds)).1 = [] ↔ d.seq ≠ e := by
  rw [chain]
  split_ifs with h <;> simp_all

/-- **One packet at a full buffer.** -/
theorem leaves_iff (hk : Kept f) (ho : Overflows f p)
    (h : resequence now queue f id p = some (f', calls)) {lowest : NfqFlowdata}
    {rest : List NfqFlowdata} (hheld : f.held = lowest :: rest) :
    (∃ least, LeastLeaves NfqFlowdata.seq p.seq ⟨p.seq, id, p.psize⟩ f.held f'.held least ∧
      calls = [⟨queue, least.packetId, .accept⟩]) ↔ Agrees f p lowest := by
  obtain ⟨hfull, hbehind, hnear, hne⟩ := ho
  have hstep := hk.2
  have hnew : NfqFlowdata.seq ⟨p.seq, id, p.psize⟩ = p.seq := rfl
  unfold Agrees
  rw [hheld] at hnear hne hstep ⊢
  rcases resequence_cases h with ⟨hle, sent, kept, hchain, rfl, rfl, -⟩ | ⟨-, hlt, -⟩ |
    ⟨hgt, -, d, ds, hd, hlow, rfl, rfl⟩ | ⟨hgt, -, ⟨d, ds, hd, hlow⟩, rfl, rfl⟩
  · have hb := before_of_behind hbehind hle
    have happ := chain_append (nextOnArrival f.expectedNext p) f.held
    have hsent : (chain (nextOnArrival f.expectedNext p) f.held).1 = [] ↔
        lowest.seq ≠ nextOnArrival f.expectedNext p := by rw [hheld, chain_eq_nil]
    rw [hchain] at hsent
    rw [hchain, hheld] at happ
    simp only [leastLeaves_suffix happ.symm, and_assoc]
    rw [if_pos hb, exists_eq_left, ← hsent]
    have hiff := least_new_iff hnew hstep hnear
    constructor
    · rintro ⟨hnil, hleast, -⟩
      obtain ⟨hfirst, hafter⟩ := hiff.mp hleast
      exact ⟨hfirst, hafter, hnil⟩
    · rintro ⟨hfirst, hafter, hnil⟩
      exact ⟨hnil, hiff.mpr ⟨hfirst, hafter⟩, by rw [show sent = [] from hnil]; rfl⟩
  · rw [hfull] at hlt
    exact absurd hlt (BitVec.lt_irrefl _)
  · rw [hheld] at hd
    cases hd
    have hb : ¬ before p.seq f.expectedNext = true := by rw [before_iff]; omega
    have hrest : (sendPacketAt now queue f lowest).1.held = rest := by
      rw [sendPacketAt_held, hheld]; rfl
    have hne' : ∀ x ∈ (sendPacketAt now queue f lowest).1.root.toList, x.seq ≠ p.seq := fun x hx =>
      hne x (List.mem_cons_of_mem _ (hrest ▸ hx))
    obtain ⟨hperm, hnone⟩ := perm_insertSeq ⟨p.seq, id, p.psize⟩ hne' (retransmit id p.psize)
    rw [← insertOrSendPacket_held now queue, ← NfqFlowbuf.held, hrest] at hperm
    rw [insertOrSendPacket_calls_of_none now queue _ _ _ _ hnone, if_neg hb, iff_true_left hlow]
    simp only [leastLeaves_iff ((hperm.cons lowest).trans (List.Perm.swap _ _ _)), and_assoc]
    rw [exists_eq_left, ← least_first_iff hnew hne]
    exact and_iff_left rfl
  · rw [hheld] at hd
    cases hd
    have hb : ¬ before p.seq f.expectedNext = true := by rw [before_iff]; omega
    have hsame : NfqFlowbuf.held { f with lastActivity := now } = lowest :: rest := hheld
    rw [hsame, if_neg hb, iff_false_left hlow, Bool.not_eq_true]
    simp only [leastLeaves_iff (List.Perm.refl _), and_assoc]
    rw [exists_eq_left, ← least_new_iff hnew hstep hnear]
    exact and_iff_left rfl

end Stage

theorem keeps_kept : Keeps Kept where
  start now seq := ⟨keeps_sized.start now seq, List.IsChain.nil⟩
  resequence _ hf now queue id p := kept_resequence hf now queue id p
  timer _ _ hf := hf

/-- **A packet at a full buffer of the stage**: the serial-least packet is accepted and leaves if
and only if the plain comparison agrees. -/
theorem lowestFirst_iff {nfq : Nfq} (hall : nfq.All Kept) {a : Arrival} {f : NfqFlowbuf}
    (hflow : nfq.flow a.pkt.sport a.pkt.dport = some f) (ho : Overflows f a.pkt) :
    ∃ lowest, f.root.first = some lowest ∧ (LowestFirst nfq a f ↔ Agrees f a.pkt lowest) := by
  have hk := hall.2 _ _ f hflow
  obtain ⟨lowest, rest, hheld⟩ : ∃ lowest rest, f.held = lowest :: rest := by
    refine List.exists_cons_of_ne_nil fun hnil => (hk.1.eq_iff.mp ho.full) ?_
    rw [hk.1.lt_iff, hnil]
    decide
  obtain ⟨f', calls, hstep, -⟩ := kept_resequence hk a.now a.queue a.id a.pkt
  obtain ⟨nfq', hr, -, hat, -, hcalls, -⟩ := stage_spec hall.1 (a := a)
    (by rw [hflow]; exact hstep)
  refine ⟨lowest, by rw [first_eq_head?, ← NfqFlowbuf.held, hheld]; rfl, ?_⟩
  rw [← leaves_iff hk ho hstep hheld]
  constructor
  · rintro ⟨nfq1, f1, least, hr1, hat1, hleaves, hcalls1⟩
    rw [hr, Option.some.injEq] at hr1
    rw [← hr1] at hat1 hcalls1
    rw [hat] at hat1
    cases hat1
    rw [hcalls] at hcalls1
    exact ⟨least, hleaves, List.append_cancel_left hcalls1⟩
  · rintro ⟨least, hleaves, rfl⟩
    exact ⟨nfq', f', least, hr, hat, hleaves, hcalls⟩

end Queue

/-! ### Both programs -/

/-- **Overflow is lowest first, up to the plain comparison**: in every state of the counter and of
the queue that can be reached, a packet behind `expected_next` that meets a full buffer, with a
number near all held ones and different from them, makes the serial-least packet leave if and only
if the first packet of the tree is the serial-least one held and compares with the arriving one as a
plain number as it does on the circle. -/
theorem overflow_iff (p : Packet) (a : Netfilter.Queue.Arrival) :
    (∀ tr rc f, run Reorder.Counter.rcHandlePacket Reorder.Flows.Rc.init tr = some rc →
      rc.flow p.sport p.dport = some f → Counter.Overflows f p →
      ∃ lowest, f.root.first = some lowest ∧
        (Counter.LowestFirst rc p f ↔ Counter.Agrees f p lowest)) ∧
    (∀ evs nfq f, run Netfilter.Queue.step Netfilter.Queue.Nfq.init evs = some nfq →
      nfq.flow a.pkt.sport a.pkt.dport = some f → Queue.Overflows f a.pkt →
      ∃ lowest, f.root.first = some lowest ∧
        (Queue.LowestFirst nfq a f ↔ Queue.Agrees f a.pkt lowest)) :=
  ⟨fun _ _ _ hrun hflow ho => Counter.lowestFirst_iff (Counter.keeps_kept.of_run hrun) hflow ho,
    fun _ _ _ hrun hflow ho => Queue.lowestFirst_iff (Queue.keeps_kept.of_run hrun) hflow ho⟩

/-! ### Full buffers -/

/-- A segment of one byte of a stream that starts at `start`. -/
def byteSegment (start : U32) (j : ℕ) : Packet := ⟨7, 9, 1, start + BitVec.ofNat 32 j, 16, 0⟩

theorem syn_byteSegment (start : U32) (j : ℕ) : (byteSegment start j).syn = false := by
  simp [byteSegment, Packet.syn, thSyn]

/-- The segments `0, 2, 3, …`: behind the missing one, `k` segments are held. -/
def fillTrace (start : U32) (k : ℕ) : List Packet :=
  (0 :: List.range' 2 k).map (byteSegment start)

/-- A segment higher than all held ones goes to the end of the tree. -/
theorem insertSeq_byte {α : Type} (seqOf : α → U32) (node : ℕ → α) {a : U32} {k : ℕ}
    {t : RbNode α} (hnode : ∀ j, seqOf (node j) = a + BitVec.ofNat 32 j)
    (ht : t.toList = (List.range' 2 k).map node) (hk : k < 1048576) (merge : α → α) :
    (insertSeq seqOf (a + BitVec.ofNat 32 (2 + k)) (node (2 + k)) merge t).1.toList =
      (List.range' 2 (k + 1)).map node := by
  have hdist : ∀ x ∈ t.toList, ∃ j < 2 + k, x = node j ∧
      sdist (seqOf x) (a + BitVec.ofNat 32 (2 + k)) = j - (2 + k : ℕ) := fun x hx => by
    rw [ht] at hx
    obtain ⟨j, hj, rfl⟩ := List.mem_map.mp hx
    rw [List.mem_range'_1] at hj
    exact ⟨j, hj.2, rfl, by rw [hnode, sdist_offset a (by omega) (by omega)]⟩
  have hsort : t.toList.Pairwise fun x y => sdist (seqOf x) (a + BitVec.ofNat 32 (2 + k)) <
      sdist (seqOf y) (a + BitVec.ofNat 32 (2 + k)) := by
    rw [ht, List.pairwise_map]
    refine (List.pairwise_lt_range' _).imp_of_mem fun {i j} hi hj hij => ?_
    rw [List.mem_range'_1] at hi hj
    rw [hnode, hnode, sdist_offset a (by omega) (by omega), sdist_offset a (by omega) (by omega)]
    omega
  have hpos : ∀ x ∈ t.toList, -2147483648 < sdist (seqOf x) (a + BitVec.ofNat 32 (2 + k)) := by
    intro x hx
    obtain ⟨j, hj, -, hd⟩ := hdist x hx
    omega
  rcases insertSeq_relative hpos hsort (node (2 + k)) merge with
    ⟨l, r, h1, h2, -, -, hr⟩ | ⟨l, x, r, h1, -, -, hx⟩
  · obtain rfl : r = [] := by
      refine List.eq_nil_iff_forall_not_mem.mpr fun x hx => ?_
      obtain ⟨j, hj, -, hd⟩ := hdist x (by rw [h1]; simp [hx])
      have := hr x hx
      omega
    rw [List.append_nil] at h1
    rw [h2, ← h1, ht, List.range'_concat, List.map_append, Nat.one_mul, List.map_singleton]
  · obtain ⟨j, hj, -, hd⟩ := hdist x (by rw [h1]; simp)
    rw [hx, sdist_self] at hd
    omega

/-- Where the held segments lie, seen from the segment that comes next. -/
theorem held_byte {α : Type} (seqOf : α → U32) (node : ℕ → α) {a : U32} {k : ℕ} {x : α}
    (hnode : ∀ j, seqOf (node j) = a + BitVec.ofNat 32 j) (hk : k < 1048576)
    (hx : x ∈ (List.range' 2 k).map node) :
    Near (seqOf x) (byteSegment a (2 + k)).seq ∧ seqOf x ≠ (byteSegment a (2 + k)).seq ∧
      sdist (a + BitVec.ofNat 32 2) (byteSegment a (2 + k)).seq ≤
        sdist (seqOf x) (byteSegment a (2 + k)).seq := by
  obtain ⟨j, hj, rfl⟩ := List.mem_map.mp hx
  rw [List.mem_range'_1] at hj
  have h1 : sdist (seqOf (node j)) (byteSegment a (2 + k)).seq = j - (2 + k : ℕ) := by
    rw [hnode]
    exact sdist_offset a (by omega) (by omega)
  have h2 : sdist (a + BitVec.ofNat 32 2) (byteSegment a (2 + k)).seq = (2 : ℕ) - (2 + k : ℕ) :=
    sdist_offset a (by omega) (by omega)
  refine ⟨by unfold Near; omega, fun heq => ?_, by omega⟩
  rw [heq, sdist_self] at h1
  omega

namespace Counter
open DynBandwidth.Reorder.Flows DynBandwidth.Reorder.Counter

/-- What `fillTrace` leaves: all its segments but the first are held. -/
theorem run_fill (a : U32) {k : ℕ} (hk : k ≤ 1024) : ∃ st f,
    run handler.flowStep ⟨none, 0, []⟩ (fillTrace a k) = some st ∧ st.buf = some f ∧ Sized f ∧
      f.expectedNext = a + BitVec.ofNat 32 1 ∧
      f.held = (List.range' 2 k).map fun j => ⟨a + BitVec.ofNat 32 j, 1⟩ := by
  induction k with
  | zero =>
    obtain ⟨f, e, h, hsized⟩ := keeps_sized.step _ (byteSegment a 0)
      (keeps_sized.fresh (byteSegment a 0))
    refine ⟨_, f, run_of_step (flowStep_of_handle handler h) rfl, rfl, hsized, ?_⟩
    have hself : sdist (byteSegment a 0).seq (handler.fresh (byteSegment a 0)).expectedNext = 0 :=
      sdist_self _
    rcases lowestFirst_cases h with ⟨-, -, hheld, hnext, -⟩ | ⟨hgt, -⟩ | ⟨hgt, -⟩ | ⟨hgt, -⟩
    · refine ⟨hnext.trans ?_, hheld⟩
      show nextAfter (byteSegment a 0) = _
      rw [nextAfter_eq (syn_byteSegment a 0)]
      simp [byteSegment, seqEnd]
    all_goals omega
  | succ k ih =>
    obtain ⟨⟨buf, c, l⟩, f, hrun, rfl, hsized, hnext, hheld⟩ := ih (by omega)
    obtain ⟨f', e, h, hsized'⟩ := keeps_sized.step f (byteSegment a (2 + k)) hsized
    have hbehind : 0 < sdist (byteSegment a (2 + k)).seq f.expectedNext := by
      rw [hnext, byteSegment, sdist_offset a (by omega) (by omega)]
      omega
    have hroom : f.size < fbufSiz := by
      rw [hsized.lt_iff, hheld, List.length_map, List.length_range']
      exact hk
    have htrace : fillTrace a (k + 1) = fillTrace a k ++ [byteSegment a (2 + k)] := by
      rw [fillTrace, fillTrace, List.range'_concat, ← List.cons_append, List.map_append,
        Nat.one_mul, List.map_singleton]
    refine ⟨_, f', by rw [htrace]; exact run_concat hrun (flowStep_buf handler h c l), rfl, hsized',
      ?_⟩
    rcases lowestFirst_cases h with ⟨hle, -⟩ | ⟨-, -, rfl, -⟩ | ⟨-, hfull, -⟩ | ⟨-, hfull, -⟩
    · omega
    · rw [insertOrSendPacket_expectedNext, insertOrSendPacket_held]
      exact ⟨hnext, insertSeq_byte RcFlowdata.seq (fun j => ⟨a + BitVec.ofNat 32 j, 1⟩)
        (fun _ => rfl) hheld (by omega) _⟩
    all_goals exact absurd hroom hfull

/-- A buffer filled from `a`, and the segment that overflows it. -/
theorem full (a : U32) : ∃ rc f, run rcHandlePacket Rc.init (fillTrace a 1024) = some rc ∧
    rc.flow 7 9 = some f ∧ Overflows f (byteSegment a 1026) ∧
    f.root.first = some ⟨a + BitVec.ofNat 32 2, 1⟩ ∧
    (Agrees f (byteSegment a 1026) ⟨a + BitVec.ofNat 32 2, 1⟩ ↔
      a + BitVec.ofNat 32 2 ≤ a + BitVec.ofNat 32 1026) := by
  obtain ⟨st, f, hrun, hbuf, hsized, hnext, hheld⟩ := run_fill a le_rfl
  obtain ⟨rc, hr, -, hflow, -⟩ := run_single handler (s := 7) (d := 9) wf_init (fun p hp => by
    obtain ⟨j, -, rfl⟩ := List.mem_map.mp hp
    exact ⟨rfl, rfl⟩) (flow_init 7 9) hrun
  rw [hbuf] at hflow
  have hpos := fun x (hx : x ∈ f.held) => held_byte RcFlowdata.seq _ (fun _ => rfl)
    (by omega) (hheld ▸ hx)
  have hbehind : 0 < sdist (byteSegment a 1026).seq f.expectedNext := by
    rw [hnext, byteSegment, sdist_offset a (by omega) (by omega)]
    omega
  refine ⟨rc, f, hr, hflow, ⟨?_, before_of_pos hbehind, fun x hx => (hpos x hx).1, fun x hx =>
    (hpos x hx).2.1⟩, ?_, ?_⟩
  · rw [hsized.1, hheld, List.length_map, List.length_range']
    rfl
  · rw [first_eq_head?, ← RcFlowbuf.held, hheld]
    rfl
  · have hlow : before (a + BitVec.ofNat 32 2) (byteSegment a 1026).seq = true := by
      rw [before_iff, byteSegment, sdist_offset a (by omega) (by omega)]
      omega
    rw [Agrees, if_neg (by rw [before_iff]; omega), iff_true_right hlow]
    exact and_iff_right fun x hx => (hpos x hx).2.2

end Counter

namespace Queue
open DynBandwidth.Netfilter.Stage DynBandwidth.Netfilter.Queue

def byteArrival (start : U32) (j : ℕ) : Arrival :=
  ⟨0, none, BitVec.ofNat 32 j, byteSegment start j⟩

def fillTrace (start : U32) (k : ℕ) : List Arrival :=
  (0 :: List.range' 2 k).map (byteArrival start)

/-- What `fillTrace` leaves: all its packets but the first are held. -/
theorem run_fill {a : U32} (ha : a < a + 1) {k : ℕ} (hk : k ≤ 256) : ∃ st f,
    run flowStep ⟨none, []⟩ (fillTrace a k) = some st ∧ st.buf = some f ∧ Sized f ∧
      f.expectedNext = a + BitVec.ofNat 32 1 ∧
      f.held = (List.range' 2 k).map fun j => ⟨a + BitVec.ofNat 32 j, BitVec.ofNat 32 j, 1⟩ := by
  induction k with
  | zero =>
    obtain ⟨f, calls, h, hsized⟩ := (keeps_sized.start 0 (byteSegment a 0).seq).resequence 0 none
      (BitVec.ofNat 32 0) (byteSegment a 0)
    have hstep : flowStep ⟨none, []⟩ (byteArrival a 0) = some ⟨some f, [] ++ calls⟩ :=
      flowStep_of_resequence h
    refine ⟨_, f, run_of_step hstep rfl, rfl, hsized, ?_⟩
    have hself : sdist (byteSegment a 0).seq
        (startFlowbuf 0 (byteSegment a 0).seq).expectedNext = 0 := sdist_self _
    rcases resequence_cases h with ⟨-, sent, rest, hchain, -, hheld, hnext, -⟩ | ⟨hgt, -⟩ |
      ⟨hgt, -⟩ | ⟨hgt, -⟩
    · have hnil : (sent, rest) = ([], []) := hchain.symm
      cases hnil
      refine ⟨hnext.trans ?_, hheld⟩
      show nextOnArrival (a + BitVec.ofNat 32 0) (byteSegment a 0) = _
      have hend : seqEnd a 1 = a + 1 := by simp [seqEnd]
      rw [nextOnArrival, syn_byteSegment, if_neg (by simp), byteSegment, BitVec.add_zero, raise,
        hend, if_pos ha]
      rfl
    all_goals omega
  | succ k ih =>
    obtain ⟨⟨buf, l⟩, f, hrun, rfl, hsized, hnext, hheld⟩ := ih (by omega)
    obtain ⟨f', calls, h, hsized'⟩ := hsized.resequence (byteArrival a (2 + k)).now
      (byteArrival a (2 + k)).queue (byteArrival a (2 + k)).id (byteArrival a (2 + k)).pkt
    have hbehind : 0 < sdist (byteArrival a (2 + k)).pkt.seq f.expectedNext := by
      rw [hnext, byteArrival, byteSegment, sdist_offset a (by omega) (by omega)]
      omega
    have hroom : f.size < fbufSiz := by
      rw [hsized.lt_iff, hheld, List.length_map, List.length_range']
      exact hk
    have htrace : fillTrace a (k + 1) = fillTrace a k ++ [byteArrival a (2 + k)] := by
      rw [fillTrace, fillTrace, List.range'_concat, ← List.cons_append, List.map_append,
        Nat.one_mul, List.map_singleton]
    refine ⟨_, f', by rw [htrace]; exact run_concat hrun (flowStep_buf h l), rfl, hsized', ?_⟩
    rcases resequence_cases h with ⟨hle, -⟩ | ⟨-, -, rfl, -⟩ | ⟨-, hfull, -⟩ | ⟨-, hfull, -⟩
    · omega
    · rw [insertOrSendPacket_expectedNext, insertOrSendPacket_held]
      exact ⟨hnext, insertSeq_byte NfqFlowdata.seq
        (fun j => ⟨a + BitVec.ofNat 32 j, BitVec.ofNat 32 j, 1⟩) (fun _ => rfl) hheld (by omega) _⟩
    all_goals exact absurd hroom hfull

/-- A buffer filled from `a`, and the packet that overflows it. -/
theorem full {a : U32} (ha : a < a + 1) : ∃ nfq f,
    run step Nfq.init ((fillTrace a 256).map Event.packet) = some nfq ∧ nfq.flow 7 9 = some f ∧
    Overflows f (byteSegment a 258) ∧ f.root.first = some ⟨a + BitVec.ofNat 32 2, 2, 1⟩ ∧
    (Agrees f (byteSegment a 258) ⟨a + BitVec.ofNat 32 2, 2, 1⟩ ↔
      a + BitVec.ofNat 32 2 ≤ a + BitVec.ofNat 32 258) := by
  obtain ⟨st, f, hrun, hbuf, hsized, hnext, hheld⟩ := run_fill ha le_rfl
  obtain ⟨nfq, hr, -, hflow, -⟩ := run_single (s := 7) (d := 9) wf_init (fun b hb => by
    obtain ⟨j, -, rfl⟩ := List.mem_map.mp hb
    exact ⟨rfl, rfl⟩) (flow_init 7 9) hrun
  rw [hbuf] at hflow
  have hpos := fun x (hx : x ∈ f.held) => held_byte NfqFlowdata.seq _ (fun _ => rfl)
    (by omega) (hheld ▸ hx)
  have hbehind : 0 < sdist (byteSegment a 258).seq f.expectedNext := by
    rw [hnext, byteSegment, sdist_offset a (by omega) (by omega)]
    omega
  refine ⟨nfq, f, hr, hflow, ⟨?_, before_of_pos hbehind, fun x hx => (hpos x hx).1, fun x hx =>
    (hpos x hx).2.1⟩, ?_, ?_⟩
  · rw [hsized.1, hheld, List.length_map, List.length_range']
    rfl
  · rw [first_eq_head?, ← NfqFlowbuf.held, hheld]
    rfl
  · have hlow : before (a + BitVec.ofNat 32 2) (byteSegment a 258).seq = true := by
      rw [before_iff, byteSegment, sdist_offset a (by omega) (by omega)]
      omega
    rw [Agrees, if_neg (by rw [before_iff]; omega), iff_true_right hlow]
    exact and_iff_right fun x hx => (hpos x hx).2.2

end Queue

/-- Both buffers filled from `0`: the lowest packet leaves. -/
theorem overflow_iff_low :
    (∃ rc f, run Reorder.Counter.rcHandlePacket Reorder.Flows.Rc.init (fillTrace 0 1024) = some rc ∧
      rc.flow 7 9 = some f ∧ Counter.Overflows f (byteSegment 0 1026) ∧
      Counter.LowestFirst rc (byteSegment 0 1026) f) ∧
    ∃ nfq f, run Netfilter.Queue.step Netfilter.Queue.Nfq.init
        ((Queue.fillTrace 0 256).map Netfilter.Queue.Event.packet) = some nfq ∧
      nfq.flow 7 9 = some f ∧ Queue.Overflows f (byteSegment 0 258) ∧
      Queue.LowestFirst nfq (Queue.byteArrival 0 258) f := by
  obtain ⟨rc, f, hr, hflow, ho, hfirst, hagrees⟩ := Counter.full 0
  obtain ⟨nfq, g, hr', hflow', ho', hfirst', hagrees'⟩ := Queue.full (a := 0) (by decide)
  have hboth := overflow_iff (byteSegment 0 1026) (Queue.byteArrival 0 258)
  obtain ⟨lowest, h1, hiff⟩ := hboth.1 _ _ f hr hflow ho
  obtain ⟨lowest', h1', hiff'⟩ := hboth.2 _ _ g hr' hflow' ho'
  rw [hfirst] at h1
  rw [hfirst'] at h1'
  cases h1
  cases h1'
  exact ⟨⟨rc, f, hr, hflow, ho, hiff.mpr (hagrees.mpr (by decide))⟩,
    nfq, g, hr', hflow', ho', hiff'.mpr (hagrees'.mpr (by decide))⟩

/-- **Overflow across the end of the sequence space**: the stream starts three bytes before it, so
that the lowest held number is `2 ^ 32 - 1`, and the number that arrives is small. The serial-least
packet does not leave. -/
theorem not_lowestFirst_wrap :
    (∃ rc f, run Reorder.Counter.rcHandlePacket Reorder.Flows.Rc.init
        (fillTrace 4294967293 1024) = some rc ∧ rc.flow 7 9 = some f ∧
      Counter.Overflows f (byteSegment 4294967293 1026) ∧
      ¬ Counter.LowestFirst rc (byteSegment 4294967293 1026) f) ∧
    ∃ nfq f, run Netfilter.Queue.step Netfilter.Queue.Nfq.init
        ((Queue.fillTrace 4294967293 256).map Netfilter.Queue.Event.packet) = some nfq ∧
      nfq.flow 7 9 = some f ∧ Queue.Overflows f (byteSegment 4294967293 258) ∧
      ¬ Queue.LowestFirst nfq (Queue.byteArrival 4294967293 258) f := by
  obtain ⟨rc, f, hr, hflow, ho, hfirst, hagrees⟩ := Counter.full 4294967293
  obtain ⟨nfq, g, hr', hflow', ho', hfirst', hagrees'⟩ :=
    Queue.full (a := 4294967293) (by decide)
  obtain ⟨lowest, h1, hiff⟩ := Counter.lowestFirst_iff (Counter.keeps_kept.of_run hr)
    (p := byteSegment 4294967293 1026) hflow ho
  obtain ⟨lowest', h1', hiff'⟩ := Queue.lowestFirst_iff (Queue.keeps_kept.of_run hr')
    (a := Queue.byteArrival 4294967293 258) hflow' ho'
  rw [hfirst] at h1
  rw [hfirst'] at h1'
  cases h1
  cases h1'
  refine ⟨⟨rc, f, hr, hflow, ho, ?_⟩, nfq, g, hr', hflow', ho', ?_⟩
  · exact fun h => absurd (hagrees.mp (hiff.mp h)) (by decide)
  · exact fun h => absurd (hagrees'.mp (hiff'.mp h)) (by decide)

end DynBandwidth.Overflow
