import DynBandwidth.Netfilter.Queue
import DynBandwidth.Reorder.Counter

/-! # Connections that are delivered in order

One direction of a TCP connection, from its SYN to its FIN and the ACKs after it, delivered in
order. `reorder_counter.c` and the stage of `nfqueue.c` keep nothing of a flow exactly as long as
each packet comes when `expected_next` has reached its number (`counter_iff`, `stage_iff`). For a
connection this fails where sequence space is consumed that the programs do not count: the FIN and
the data of a SYN, and in `nfqueue.c` also the data of a segment that crosses `2 ^ 32`
(`clean_iff`). A packet after the FIN is the common case (`ack_after_fin`). -/

namespace DynBandwidth.Connections

open DynBandwidth.Lib.Serial DynBandwidth.Lib.RbTree DynBandwidth.Lib.Runs
open DynBandwidth.Reorder.Header DynBandwidth.Reorder.Flows
open DynBandwidth.Netfilter.Stage DynBandwidth.Netfilter.Queue

/-! ### Connections -/

/-- The number after a packet: payload, SYN and FIN take sequence space. -/
def follow (p : Packet) : U32 :=
  seqEnd p.seq p.psize + (if p.syn then 1 else 0) + (if p.fin then 1 else 0)

/-- One direction of a connection, delivered in order: a SYN, data segments and pure ACKs, a FIN,
and pure ACKs. -/
structure Connection (s d : U16) where
  syn : Packet
  segs : List Packet
  fin : Packet
  acks : List Packet
  flow : ∀ p ∈ syn :: (segs ++ fin :: acks), p.sport = s ∧ p.dport = d
  synFlags : syn.syn = true ∧ syn.fin = false
  segFlags : ∀ p ∈ segs, p.syn = false ∧ p.fin = false
  finFlags : fin.syn = false ∧ fin.fin = true
  ackFlags : ∀ p ∈ acks, p.syn = false ∧ p.fin = false ∧ p.psize = 0
  inOrder : (syn :: (segs ++ fin :: acks)).IsChain fun p q => q.seq = follow p

def Connection.packets {s d : U16} (c : Connection s d) : List Packet :=
  c.syn :: (c.segs ++ c.fin :: c.acks)

/-- The number of the packet is `expected_next` or before it. -/
def OnTime (expectedNext : U32) (p : Packet) : Prop :=
  (before p.seq expectedNext || p.seq == expectedNext) = true

theorem onTime_iff {e : U32} {p : Packet} : OnTime e p ↔ sdist p.seq e ≤ 0 := le_iff_sdist

theorem onTime_self {e : U32} {p : Packet} (h : p.seq = e) : OnTime e p := by
  rw [onTime_iff, h, sdist_self]

/-! ### The counter -/

/-- The packet is not counted, and its flow holds nothing. -/
def NotCounted (rc : Rc) (p : Packet) (rc' : Rc) : Prop :=
  rc'.reorderCount = rc.reorderCount ∧ ∃ f, rc'.flow p.sport p.dport = some f ∧ f.root = .nil

/-- A packet of an empty flow. -/
theorem lowestFirst_empty {f : RcFlowbuf} (hs : Reorder.Counter.Sized f) (hf : f.root = .nil)
    (p : Packet) : ∃ f' e, Reorder.Counter.lowestFirst f p = some (f', e) ∧
      Reorder.Counter.Sized f' ∧
      ((OnTime f.expectedNext p ∧ e.counted = 0 ∧ f'.root = .nil ∧ f'.expectedNext = nextAfter p) ∨
        (¬ OnTime f.expectedNext p ∧ f'.root ≠ .nil)) := by
  have hnil : f.held = [] := toList_eq_nil.mpr hf
  obtain ⟨f', e, h, hs'⟩ := Reorder.Counter.keeps_sized.step f p hs
  refine ⟨f', e, h, hs', ?_⟩
  rw [onTime_iff]
  rcases Reorder.Counter.lowestFirst_cases h with ⟨hle, rfl, hheld, hnext, -⟩ | ⟨hgt, -, rfl, -⟩ |
    ⟨-, -, d, ds, hcons, -⟩ | ⟨-, -, ⟨d, ds, hcons, -⟩, -⟩
  · rw [hnil] at hheld hnext
    exact Or.inl ⟨hle, rfl, toList_eq_nil.mp hheld, hnext⟩
  · refine Or.inr ⟨by omega, fun hroot => ?_⟩
    have hno := (Reorder.Counter.forall_insertOrSendPacket f p.seq p.psize fun _ => False).mp
    rw [RcFlowbuf.held, hroot] at hno
    exact (hno (by simp)).1
  · rw [hnil] at hcons; cases hcons
  · rw [hnil] at hcons; cases hcons

/-- A packet of a flow that is empty or new. -/
theorem counter_step {rc : Rc} (hall : rc.All Reorder.Counter.Sized) {p : Packet} {f : RcFlowbuf}
    (hbuf : (rc.flow p.sport p.dport).getD (Reorder.Counter.handler.fresh p) = f)
    (hf : f.root = .nil) : ∃ rc', Reorder.Counter.rcHandlePacket rc p = some rc' ∧
      (NotCounted rc p rc' ↔ OnTime f.expectedNext p) ∧
      (OnTime f.expectedNext p → rc'.All Reorder.Counter.Sized ∧
        ∃ f', rc'.flow p.sport p.dport = some f' ∧ f'.root = .nil ∧
          f'.expectedNext = nextAfter p) := by
  have hs : Reorder.Counter.Sized f := hbuf ▸ hall.getD (Reorder.Counter.keeps_sized.fresh p) _ _
  obtain ⟨f', e, h, hs', hcase⟩ := lowestFirst_empty hs hf p
  obtain ⟨rc', hr, hwf, hat, hother, hcount, -⟩ :=
    rcHandlePacket_spec Reorder.Counter.handler hall.1 (by rw [hbuf]; exact h)
  refine ⟨rc', hr, ?_⟩
  rcases hcase with ⟨hot, hzero, hroot, hnext⟩ | ⟨hnot, hroot⟩
  · refine ⟨iff_of_true ⟨?_, f', hat, hroot⟩ hot, fun _ =>
      ⟨hall.step hwf hat hs' hother, f', hat, hroot, hnext⟩⟩
    rw [hcount, hzero, add_zero]
  · refine ⟨iff_of_false ?_ hnot, fun hot => absurd hot hnot⟩
    rintro ⟨-, g, hg, hgroot⟩
    rw [hat] at hg
    cases hg
    exact hroot hgroot

/-- **The counter keeps nothing of a new flow if and only if every packet is on time.** -/
theorem counter_iff {rc : Rc} {s d : U16} (hall : rc.All Reorder.Counter.Sized)
    (hfresh : rc.flow s d = none) {p : Packet} {tr : List Packet}
    (htr : ∀ q ∈ p :: tr, q.sport = s ∧ q.dport = d) :
    AllRounds Reorder.Counter.rcHandlePacket NotCounted rc (p :: tr) ↔
      Along OnTime (fun _ q => nextAfter q) p.seq (p :: tr) := by
  obtain ⟨rfl, rfl⟩ := htr p (by simp)
  obtain ⟨rc1, e1, hiff, hJ⟩ := counter_step hall (f := ⟨0, p.seq, .nil⟩) (by rw [hfresh]; rfl) rfl
  rw [allRounds_cons _ e1, hiff, Along]
  refine and_congr_right fun hot => ?_
  refine allRounds_iff (Q := fun q => q.sport = p.sport ∧ q.dport = p.dport)
    (J := fun e rc => rc.All Reorder.Counter.Sized ∧ ∃ f, rc.flow p.sport p.dport = some f ∧
      f.root = .nil ∧ f.expectedNext = e) ?_ (fun q hq => htr q (by simp [hq])) (hJ hot)
  rintro e rc2 q ⟨hq1, hq2⟩ ⟨hall2, f, hf, hroot, rfl⟩
  rw [← hq1, ← hq2] at hf ⊢
  exact counter_step hall2 (by rw [hf]; rfl) hroot

/-! ### The stage -/

/-- The packet is accepted when it arrives, and its flow holds nothing. -/
def AcceptedOnArrival (nfq : Nfq) (a : Arrival) (nfq' : Nfq) : Prop :=
  nfq'.calls = nfq.calls ++ [⟨a.queue, a.id, .accept⟩] ∧
    ∃ f, nfq'.flow a.pkt.sport a.pkt.dport = some f ∧ f.root = .nil

/-- A packet of an empty flow. -/
theorem resequence_empty {f : NfqFlowbuf} (hs : Sized f) (hf : f.root = .nil) (now : ℚ)
    (queue : QHandle) (id : U32) (p : Packet) : ∃ f' calls,
      resequence now queue f id p = some (f', calls) ∧ Sized f' ∧
      ((OnTime f.expectedNext p ∧ calls = [⟨queue, id, .accept⟩] ∧ f'.root = .nil ∧
          f'.expectedNext = nextOnArrival f.expectedNext p) ∨
        (¬ OnTime f.expectedNext p ∧ f'.root ≠ .nil)) := by
  have hnil : f.held = [] := toList_eq_nil.mpr hf
  obtain ⟨f', calls, h, hs'⟩ := hs.resequence now queue id p
  refine ⟨f', calls, h, hs', ?_⟩
  rw [onTime_iff]
  rcases resequence_cases h with ⟨hle, sent, rest, hchain, rfl, hheld, hnext, -⟩ |
    ⟨hgt, -, rfl, -⟩ | ⟨-, -, d, ds, hcons, -⟩ | ⟨-, -, ⟨d, ds, hcons, -⟩, -⟩
  · rw [hnil, chain, Prod.mk.injEq] at hchain
    obtain ⟨rfl, rfl⟩ := hchain
    exact Or.inl ⟨hle, rfl, toList_eq_nil.mp hheld, hnext⟩
  · refine Or.inr ⟨by omega, fun hroot => ?_⟩
    have hno := (forall_insertOrSendPacket now queue f p.seq id p.psize fun _ => False).mp
    rw [NfqFlowbuf.held, hroot] at hno
    exact (hno (by simp)).1
  · rw [hnil] at hcons; cases hcons
  · rw [hnil] at hcons; cases hcons

/-- A packet of a flow that is empty or new. -/
theorem stage_step {nfq : Nfq} (hall : nfq.All Sized) {a : Arrival} {f : NfqFlowbuf}
    (hbuf : (nfq.flow a.pkt.sport a.pkt.dport).getD (startFlowbuf a.now a.pkt.seq) = f)
    (hf : f.root = .nil) : ∃ nfq', stage a nfq = some nfq' ∧
      (AcceptedOnArrival nfq a nfq' ↔ OnTime f.expectedNext a.pkt) ∧
      (OnTime f.expectedNext a.pkt → nfq'.All Sized ∧
        ∃ f', nfq'.flow a.pkt.sport a.pkt.dport = some f' ∧ f'.root = .nil ∧
          f'.expectedNext = nextOnArrival f.expectedNext a.pkt) := by
  have hs : Sized f := hbuf ▸ hall.getD (keeps_sized.start a.now a.pkt.seq) _ _
  obtain ⟨f', calls, h, hs', hcase⟩ := resequence_empty hs hf a.now a.queue a.id a.pkt
  obtain ⟨nfq', hr, hwf, hat, hother, hcalls, -⟩ := stage_spec hall.1 (by rw [hbuf]; exact h)
  refine ⟨nfq', hr, ?_⟩
  rcases hcase with ⟨hot, rfl, hroot, hnext⟩ | ⟨hnot, hroot⟩
  · exact ⟨iff_of_true ⟨hcalls, f', hat, hroot⟩ hot, fun _ =>
      ⟨hall.set hwf hat hs' hother, f', hat, hroot, hnext⟩⟩
  · refine ⟨iff_of_false ?_ hnot, fun hot => absurd hot hnot⟩
    rintro ⟨-, g, hg, hgroot⟩
    rw [hat] at hg
    cases hg
    exact hroot hgroot

/-- **The stage keeps nothing of a new flow if and only if every packet is on time.** -/
theorem stage_iff {nfq : Nfq} {s d : U16} (hall : nfq.All Sized) (hfresh : nfq.flow s d = none)
    {a : Arrival} {tr : List Arrival} (htr : ∀ b ∈ a :: tr, b.pkt.sport = s ∧ b.pkt.dport = d) :
    AllRounds (fun nfq b => stage b nfq) AcceptedOnArrival nfq (a :: tr) ↔
      Along OnTime nextOnArrival a.pkt.seq ((a :: tr).map Arrival.pkt) := by
  obtain ⟨rfl, rfl⟩ := htr a (by simp)
  obtain ⟨nfq1, e1, hiff, hJ⟩ := stage_step hall (f := startFlowbuf a.now a.pkt.seq)
    (by rw [hfresh]; rfl) rfl
  rw [allRounds_cons (fun nfq b => stage b nfq) e1, hiff, List.map_cons, Along]
  refine and_congr_right fun hot => ?_
  rw [← along_map]
  refine allRounds_iff (Q := fun b => b.pkt.sport = a.pkt.sport ∧ b.pkt.dport = a.pkt.dport)
    (J := fun e nfq => nfq.All Sized ∧ ∃ f, nfq.flow a.pkt.sport a.pkt.dport = some f ∧
      f.root = .nil ∧ f.expectedNext = e) ?_ (fun b hb => htr b (by simp [hb])) (hJ hot)
  rintro e nfq2 b ⟨hb1, hb2⟩ ⟨hall2, f, hf, hroot, rfl⟩
  rw [← hb1, ← hb2] at hf ⊢
  exact stage_step hall2 (by rw [hf]; rfl) hroot

/-! ### The numbers of a connection -/

theorem follow_plain {p : Packet} (h : p.syn = false ∧ p.fin = false) :
    follow p = seqEnd p.seq p.psize := by
  simp [follow, h.1, h.2]

theorem sdist_add_one (a : U32) : sdist (a + 1) a = 1 := by
  unfold sdist
  rw [add_sub_cancel_left]
  decide

theorem follow_fin {p : Packet} (h : p.syn = false ∧ p.fin = true) :
    follow p = seqEnd p.seq p.psize + 1 := by
  simp [follow, h.1, h.2]

theorem follow_syn {p : Packet} (h : p.syn = true ∧ p.fin = false) :
    follow p = seqEnd (p.seq + 1) p.psize := by
  simp only [follow, h.1, h.2, seqEnd, if_true]
  ring_nf
  simp

/-- The counter: from the first segment on, every packet is on time if and only if the FIN is the
last one. -/
theorem along_counter {fin : Packet} {acks : List Packet}
    (hfin : fin.syn = false ∧ fin.fin = true) :
    ∀ {segs : List Packet} {e : U32}, (∀ p ∈ segs, p.syn = false ∧ p.fin = false) →
      (segs ++ fin :: acks).IsChain (fun p q => q.seq = follow p) →
      (∀ p ∈ (segs ++ fin :: acks).head?, p.seq = e) →
      (Along OnTime (fun _ q => nextAfter q) e (segs ++ fin :: acks) ↔ acks = [])
  | [], e, _, hchain, hhead => by
    rw [List.nil_append, Along, and_iff_right (onTime_self (hhead fin rfl)), nextAfter_eq hfin.1]
    rcases acks with _ | ⟨a, acks⟩
    · exact iff_of_true trivial rfl
    · refine iff_of_false (fun h => ?_) (by simp)
      have hseq : a.seq = follow fin := (List.isChain_cons_cons.mp hchain).1
      have hot := onTime_iff.mp h.1
      rw [hseq, follow_fin hfin, sdist_add_one] at hot
      omega
  | p :: segs, e, hsegs, hchain, hhead => by
    rw [List.cons_append] at hchain ⊢
    have hp := hsegs p (by simp)
    rw [Along, and_iff_right (onTime_self (hhead p rfl)), nextAfter_eq hp.1]
    refine along_counter hfin (fun q hq => hsegs q (by simp [hq])) hchain.tail fun q hq => ?_
    rw [← follow_plain hp]
    exact (List.isChain_cons.mp hchain).1 q hq

theorem toNat_seqEnd (seq : U32) (size : U16) :
    (seqEnd seq size).toNat = (seq.toNat + size.toNat) % 4294967296 := by
  have := size.isLt
  rw [seqEnd, BitVec.toNat_add, BitVec.toNat_setWidth,
    Nat.mod_eq_of_lt (a := size.toNat) (by omega)]

/-- A segment that starts at `expected_next` raises it unless it crosses `2 ^ 32`. -/
theorem raise_self (seq : U32) (size : U16) : raise seq seq size =
    if seq.toNat + size.toNat < 4294967296 then seqEnd seq size else seq := by
  have hlt := seq.isLt
  have hsz := size.isLt
  have hend := toNat_seqEnd seq size
  unfold raise
  split_ifs with h1 h2 h2
  · rfl
  · rw [gt_iff_lt, BitVec.lt_def] at h1
    omega
  · rw [gt_iff_lt, BitVec.lt_def] at h1
    exact BitVec.eq_of_toNat_eq (by omega)
  · rfl

/-- The stage: in addition, no data before the FIN may cross `2 ^ 32`. -/
theorem along_stage {fin : Packet} {acks : List Packet} (hfin : fin.syn = false ∧ fin.fin = true) :
    ∀ {segs : List Packet} {e : U32}, (∀ p ∈ segs, p.syn = false ∧ p.fin = false) →
      (segs ++ fin :: acks).IsChain (fun p q => q.seq = follow p) →
      (∀ p ∈ (segs ++ fin :: acks).head?, p.seq = e) →
      (Along OnTime nextOnArrival e (segs ++ fin :: acks) ↔
        acks = [] ∧ e.toNat + (segs.map fun p => p.psize.toNat).sum < 4294967296)
  | [], e, _, hchain, hhead => by
    have he := e.isLt
    rw [List.nil_append, Along, and_iff_right (onTime_self (hhead fin rfl))]
    rcases acks with _ | ⟨a, acks⟩
    · refine iff_of_true trivial ⟨rfl, ?_⟩
      rw [List.map_nil, List.sum_nil]
      omega
    · refine iff_of_false (fun h => ?_) (by simp)
      have hseq : a.seq = follow fin := (List.isChain_cons_cons.mp hchain).1
      have hot := onTime_iff.mp h.1
      rw [hseq, follow_fin hfin, nextOnArrival, if_neg (by simp [hfin.1]), ← hhead fin rfl,
        raise_self] at hot
      have h1 := sdist_add_one (seqEnd fin.seq fin.psize)
      split_ifs at hot
      · omega
      · have h2 := sdist_seqEnd fin.seq fin.psize
        have h3 := sdist_add (seqEnd fin.seq fin.psize + 1) (seqEnd fin.seq fin.psize) fin.seq
        have h4 := fin.psize.isLt
        have h5 := sdist_range (seqEnd fin.seq fin.psize + 1) fin.seq
        omega
  | p :: segs, e, hsegs, hchain, hhead => by
    rw [List.cons_append] at hchain ⊢
    have hp := hsegs p (by simp)
    have hpe : p.seq = e := hhead p rfl
    have hnext : ∀ q ∈ (segs ++ fin :: acks).head?, q.seq = seqEnd e p.psize := fun q hq => by
      rw [← hpe, ← follow_plain hp]
      exact (List.isChain_cons.mp hchain).1 q hq
    rw [Along, and_iff_right (onTime_self hpe), nextOnArrival, if_neg (by simp [hp.1]), hpe,
      raise_self, List.map_cons, List.sum_cons]
    split_ifs with hlt
    · rw [along_stage hfin (fun q hq => hsegs q (by simp [hq])) hchain.tail hnext, toNat_seqEnd,
        Nat.mod_eq_of_lt hlt, Nat.add_assoc]
    · -- the segment crosses `2 ^ 32`: the next packet, the FIN at the latest, is early
      refine iff_of_false (fun h => ?_) fun h => by omega
      obtain ⟨q, rest, hq⟩ : ∃ q rest, segs ++ fin :: acks = q :: rest := by
        rcases segs with _ | ⟨q, segs⟩
        · exact ⟨_, _, rfl⟩
        · exact ⟨_, _, rfl⟩
      rw [hq, Along] at h
      have hot := onTime_iff.mp h.1
      rw [hnext q (by rw [hq]; rfl), sdist_seqEnd] at hot
      have := e.isLt
      omega

section Clean
variable {s d : U16} (c : Connection s d)

theorem Connection.first_segment {P : U32 → Prop} (next : U32 → Packet → U32)
    (hnext : next c.syn.seq c.syn = c.syn.seq + 1)
    (hrest : (∀ p ∈ (c.segs ++ c.fin :: c.acks).head?, p.seq = c.syn.seq + 1) →
      (Along OnTime next (c.syn.seq + 1) (c.segs ++ c.fin :: c.acks) ↔ P (c.syn.seq + 1))) :
    Along OnTime next c.syn.seq c.packets ↔ c.syn.psize = 0 ∧ P (c.syn.seq + 1) := by
  have hhead := (List.isChain_cons.mp c.inOrder).1
  rw [Connection.packets, Along, and_iff_right (onTime_self rfl), hnext]
  by_cases h0 : c.syn.psize = 0
  · rw [and_iff_right h0]
    refine hrest fun p hp => ?_
    rw [hhead p hp, follow_syn c.synFlags, h0]
    simp [seqEnd]
  · refine iff_of_false (fun h => ?_) fun h => h0 h.1
    obtain ⟨q, rest, hq⟩ : ∃ q rest, c.segs ++ c.fin :: c.acks = q :: rest := by
      rcases c.segs with _ | ⟨q, segs⟩
      · exact ⟨_, _, rfl⟩
      · exact ⟨_, _, rfl⟩
    rw [hq, Along] at h
    have hot := onTime_iff.mp h.1
    rw [hhead q (by rw [hq]; rfl), follow_syn c.synFlags, sdist_seqEnd] at hot
    exact h0 (BitVec.eq_of_toNat_eq (by simpa using hot))

/-- **A connection delivered in order** leaves no trace in the counter if and only if its SYN
carries no data and nothing follows its FIN. The stage of `nfqueue.c` accepts its packets when they
arrive if and only if, in addition, no data before the FIN crosses `2 ^ 32`. -/
theorem clean_iff {h : List Packet} {rc : Rc}
    (hrc : run Reorder.Counter.rcHandlePacket Rc.init h = some rc) (hnew : rc.flow s d = none)
    {evs : List Event} {nfq : Nfq} (hnfq : run step Nfq.init evs = some nfq)
    (hnone : nfq.flow s d = none) {tr : List Arrival} (htr : tr.map Arrival.pkt = c.packets) :
    (AllRounds Reorder.Counter.rcHandlePacket NotCounted rc c.packets ↔
      c.syn.psize = 0 ∧ c.acks = []) ∧
    (AllRounds (fun nfq a => stage a nfq) AcceptedOnArrival nfq tr ↔ c.syn.psize = 0 ∧ c.acks = [] ∧
      (c.syn.seq + 1).toNat + (c.segs.map fun p => p.psize.toNat).sum < 4294967296) := by
  have hchain := c.inOrder.tail
  have hsyn := c.synFlags.1
  constructor
  · rw [Connection.packets, counter_iff (Reorder.Counter.keeps_sized.of_run hrc) hnew c.flow,
      ← Connection.packets]
    refine c.first_segment (P := fun _ => c.acks = []) _ (by simp [nextAfter, hsyn]) fun hhead => ?_
    exact along_counter c.finFlags c.segFlags hchain hhead
  · rcases tr with _ | ⟨a, tr⟩
    · simp [Connection.packets] at htr
    have hports : ∀ b ∈ a :: tr, b.pkt.sport = s ∧ b.pkt.dport = d := fun b hb => by
      have hmem := List.mem_map_of_mem (f := Arrival.pkt) hb
      rw [htr] at hmem
      exact c.flow b.pkt hmem
    have ha : a.pkt = c.syn := (List.cons.inj htr).1
    rw [stage_iff (keeps_sized.of_run hnfq) hnone hports, htr, ha]
    refine c.first_segment (P := fun e => c.acks = [] ∧
      e.toNat + (c.segs.map fun p => p.psize.toNat).sum < 4294967296) _
      (by simp [nextOnArrival, hsyn]) fun hhead => ?_
    exact along_stage c.finFlags c.segFlags hchain hhead

end Clean

/-- A connection that ends with its FIN. -/
def lastFin : Connection 7 9 where
  syn := ⟨7, 9, 0, 1000, 2, 0⟩
  segs := [⟨7, 9, 100, 1001, 16, 0⟩, ⟨7, 9, 0, 1101, 16, 0⟩]
  fin := ⟨7, 9, 0, 1101, 17, 0⟩
  acks := []
  flow := by decide
  synFlags := by decide
  segFlags := by decide
  finFlags := by decide
  ackFlags := by decide
  inOrder := by decide

theorem clean_lastFin :
    AllRounds Reorder.Counter.rcHandlePacket NotCounted Rc.init lastFin.packets ∧
    AllRounds (fun nfq a => stage a nfq) AcceptedOnArrival Nfq.init
      (lastFin.packets.map fun p => ⟨0, none, 0, p⟩) := by
  obtain ⟨hcounter, hstage⟩ := clean_iff lastFin
    (show run Reorder.Counter.rcHandlePacket Rc.init [] = some Rc.init from rfl)
    (Reorder.Flows.flow_init 7 9) (show run step Nfq.init [] = some Nfq.init from rfl)
    (Netfilter.Queue.flow_init 7 9)
    (show (lastFin.packets.map fun p => (⟨0, none, 0, p⟩ : Arrival)).map Arrival.pkt =
      lastFin.packets from rfl)
  exact ⟨hcounter.mpr (by decide), hstage.mpr (by decide)⟩

/-- A connection with an ACK after its FIN, as the other direction's data makes it send. -/
def ackedFin : Connection 7 9 where
  syn := ⟨7, 9, 0, 1000, 2, 0⟩
  segs := []
  fin := ⟨7, 9, 0, 1001, 17, 0⟩
  acks := [⟨7, 9, 0, 1002, 16, 0⟩]
  flow := by decide
  synFlags := by decide
  segFlags := by decide
  finFlags := by decide
  ackFlags := by decide
  inOrder := by decide

/-- **The ACK after the FIN is reported as reordered**, and stays in the tree. -/
theorem ack_after_fin : ∃ rc f,
    run Reorder.Counter.rcHandlePacket Rc.init ackedFin.packets = some rc ∧ rc.reorderCount = 1 ∧
    rc.flow 7 9 = some f ∧ f.held = [⟨1002, 0⟩] ∧ f.expectedNext = 1001 :=
  ⟨_, _, rfl, by decide, rfl, by decide, by decide⟩

end DynBandwidth.Connections
