import DynBandwidth.Reorder.CounterStream

/-! # Windowed runs of `reorder_counter.c`

In a run whose packets are near everything their flow knows (`Windowed`), the trees are ascending
and the loop of the in-order branch leaves only segments strictly after `expected_next`
(`chain_rest_after`). The branch for a full buffer moves `expected_next` to the end of the segment
it sends, and does not look at the segments behind it. So no flow ever keeps a segment whose turn
has come if and only if each segment sent from a full buffer ends before the next one starts
(`heldAfterNext_iff`), and a run of more than `FBUF_SIZ` packets behind one missing packet is the
opposite case (`not_heldAfterNext`). -/

namespace DynBandwidth.Reorder.CounterWindow

open DynBandwidth.Lib.Serial DynBandwidth.Lib.RbTree DynBandwidth.Lib.Runs
open DynBandwidth.Lib.Resequence
open DynBandwidth.Reorder.Header DynBandwidth.Reorder.SeqTree DynBandwidth.Reorder.Flows
open DynBandwidth.Reorder.Counter DynBandwidth.Reorder.Segments DynBandwidth.Reorder.CounterStream

/-- The number of the packet is near `expected_next` of its flow and all numbers held there. -/
def Windowed (rc : Rc) (p : Packet) : Prop := ∀ f, rc.flow p.sport p.dport = some f →
  Near p.seq f.expectedNext ∧ ∀ x ∈ f.held, Near p.seq x.seq

/-- Every held segment lies strictly after `expected_next`. -/
def HeldAfterNext (rc : Rc) : Prop := ∀ s d f, rc.flow s d = some f →
  ∀ x ∈ f.held, before f.expectedNext x.seq = true

/-- If the packet makes a full buffer send its lowest segment, the packet and the other held
segments lie strictly after the end of that segment. -/
def EvictsApart (rc : Rc) (p : Packet) : Prop := ∀ f lowest rest,
  rc.flow p.sport p.dport = some f → before f.expectedNext p.seq = true → f.size = fbufSiz →
  f.held = lowest :: rest → lowest.seq ≤ p.seq →
  before (seqEnd lowest.seq lowest.segSize) p.seq = true ∧
    ∀ x ∈ rest, before (seqEnd lowest.seq lowest.segSize) x.seq = true

/-! ### One packet on one flow -/

/-- What windowed runs keep of a flow. -/
structure Kept (f : RcFlowbuf) : Prop where
  sized : Sized f
  ascending : Ascending RcFlowdata.seq f.held
  afterNext : ∀ x ∈ f.held, before f.expectedNext x.seq = true

theorem lastEnd_concat : ∀ (e : U32) (l : List RcFlowdata) (x : RcFlowdata),
    lastEnd e (l ++ [x]) = seqEnd x.seq x.segSize
  | _, [], _ => rfl
  | _, _ :: l, x => lastEnd_concat _ l x

/-- The end of the data sent by the loop is close to a number near everything that stays: the number
of the last segment sent, or of the packet itself. -/
theorem lastEnd_base {p : Packet} {ds : List RcFlowdata} (ha : Ascending RcFlowdata.seq ds)
    (hn : ∀ x ∈ ds, Near p.seq x.seq) : ∃ b,
      0 ≤ sdist (lastEnd (nextAfter p) (chain (nextAfter p) ds).1) b ∧
      sdist (lastEnd (nextAfter p) (chain (nextAfter p) ds).1) b ≤ 65535 ∧
      ∀ x ∈ (chain (nextAfter p) ds).2, Near x.seq b := by
  have happ := chain_append (nextAfter p) ds
  rcases List.eq_nil_or_concat (chain (nextAfter p) ds).1 with hnil | ⟨l, z, hz⟩
  · rw [hnil, List.nil_append] at happ
    have h := sdist_nextAfter p
    refine ⟨p.seq, by rw [hnil]; exact h.1, by rw [hnil]; exact h.2, fun x hx => ?_⟩
    exact (hn x (by rw [← happ]; exact hx)).symm
  · rw [hz, List.concat_eq_append, lastEnd_concat]
    have h := sdist_seqEnd z.seq z.segSize
    have hlt := z.segSize.isLt
    refine ⟨z.seq, by omega, by omega, fun x hx => ?_⟩
    rw [← happ, hz, List.concat_eq_append] at ha
    have := (List.pairwise_append.mp ha).2.2 z (by simp) x hx
    unfold Near
    omega

/-- **What the loop leaves lies after `expected_next`.** -/
theorem chain_rest_after {p : Packet} {ds : List RcFlowdata} (ha : Ascending RcFlowdata.seq ds)
    (hn : ∀ x ∈ ds, Near p.seq x.seq) : ∀ x ∈ (chain (nextAfter p) ds).2,
      before (lastEnd (nextAfter p) (chain (nextAfter p) ds).1) x.seq = true := by
  obtain ⟨b, hb1, hb2, hb⟩ := lastEnd_base ha hn
  have hrest : Ascending RcFlowdata.seq (chain (nextAfter p) ds).2 := by
    rw [← chain_append (nextAfter p) ds] at ha
    exact (List.pairwise_append.mp ha).2.1
  rcases hr : (chain (nextAfter p) ds).2 with _ | ⟨y, r⟩
  · simp
  · have hy := chain_rest _ _ hr
    rw [hr] at hrest hb
    intro x hx
    rcases List.mem_cons.mp hx with rfl | hxr
    · exact before_of_pos hy
    · have hyx := (List.pairwise_cons.mp hrest).1 x hxr
      exact before_of_pos (sdist_pos_trans hb1 hb2 (hb y (by simp)) (hb x hx) hyx.1 hy)

/-- **A packet within the window of its flow** keeps the tree ascending. -/
theorem ascending_of_near {f f' : RcFlowbuf} {p : Packet} {e : Effect}
    (ha : Ascending RcFlowdata.seq f.held) (hn : ∀ x ∈ f.held, Near p.seq x.seq)
    (h : lowestFirst f p = some (f', e)) : Ascending RcFlowdata.seq f'.held :=
  ascending_step ha (fun _ hg x hx => hn x (mem_of_insertion hg hx)) h

/-- **What such a packet leaves** lies after `expected_next`, unless it is stored in a full buffer
that is not evicted apart. -/
theorem step_kept {f : RcFlowbuf} {p : Packet} (hk : Kept f)
    (hw : Near p.seq f.expectedNext ∧ ∀ x ∈ f.held, Near p.seq x.seq) :
    ∃ f' e, lowestFirst f p = some (f', e) ∧ Sized f' ∧ Ascending RcFlowdata.seq f'.held ∧
      ((∀ x ∈ f'.held, before f'.expectedNext x.seq = true) ↔ ∀ lowest rest,
        before f.expectedNext p.seq = true → f.size = fbufSiz → f.held = lowest :: rest →
        lowest.seq ≤ p.seq → before (seqEnd lowest.seq lowest.segSize) p.seq = true ∧
          ∀ x ∈ rest, before (seqEnd lowest.seq lowest.segSize) x.seq = true) := by
  obtain ⟨f', e, hstep, hsized⟩ := keeps_sized.step f p hk.sized
  refine ⟨f', e, hstep, hsized, ascending_of_near hk.ascending hw.2 hstep, ?_⟩
  rcases lowestFirst_cases hstep with ⟨hle, -, hheld, hexp, -⟩ | ⟨hgt, hlt, rfl, -⟩ |
    ⟨hgt, hnlt, lowest, rest, hheld, hlow, rfl, -⟩ |
    ⟨hgt, hnlt, ⟨lowest, rest, hheld, hlow⟩, rfl, -⟩
  · rw [hheld, hexp]
    refine iff_of_true (chain_rest_after hk.ascending hw.2) fun _ _ hbef _ _ _ => ?_
    have hnear := hw.1
    have e := sdist_swap (a := p.seq) (b := f.expectedNext) (by have := hnear.1; omega)
    rw [before_iff] at hbef
    omega
  · rw [insertOrSendPacket_expectedNext,
      forall_insertOrSendPacket f p.seq p.psize (before f.expectedNext · = true)]
    exact iff_of_true ⟨before_of_pos hgt, hk.afterNext⟩ fun _ _ _ hsz =>
      absurd hlt (hk.sized.eq_iff.mp hsz)
  · have hrest : (sendPacketAt f lowest).held = rest := by
      rw [sendPacketAt_held, hheld, List.tail_cons]
    rw [insertOrSendPacket_expectedNext, forall_insertOrSendPacket (sendPacketAt f lowest) p.seq
      p.psize (before (sendPacketAt f lowest).expectedNext · = true), hrest]
    constructor
    · intro h lowest' rest' _ _ hheld' _
      rw [hheld, List.cons.injEq] at hheld'
      obtain ⟨rfl, rfl⟩ := hheld'
      exact h
    · intro h
      exact h lowest rest (before_of_pos hgt) (hk.sized.eq_iff.mpr hnlt) hheld hlow
  · refine iff_of_true hk.afterNext fun lowest' rest' _ _ hheld' hlow' => ?_
    rw [hheld, List.cons.injEq] at hheld'
    rw [← hheld'.1] at hlow'
    exact absurd hlow' hlow

/-! ### Runs -/

theorem kept_fresh (p : Packet) : Kept (handler.fresh p) :=
  ⟨keeps_sized.fresh p, List.Pairwise.nil, fun x hx => by simp [RcFlowbuf.held, handler] at hx⟩

/-- The buffer of a packet in a windowed run. -/
theorem Windowed.getD {rc : Rc} {p : Packet} (hw : Windowed rc p) :
    Near p.seq ((rc.flow p.sport p.dport).getD (handler.fresh p)).expectedNext ∧
      ∀ x ∈ ((rc.flow p.sport p.dport).getD (handler.fresh p)).held, Near p.seq x.seq := by
  rcases ho : rc.flow p.sport p.dport with _ | f
  · exact ⟨near_self p.seq, fun x hx => by simp [RcFlowbuf.held, handler] at hx⟩
  · exact hw f ho

/-- **Windowed runs keep the trees ascending.** -/
theorem ascending_of_windowed {tr : List Packet} {rc : Rc}
    (hw : AllSteps rcHandlePacket Windowed Rc.init tr)
    (hr : run rcHandlePacket Rc.init tr = some rc) :
    rc.All fun f => Sized f ∧ Ascending RcFlowdata.seq f.held := by
  refine run_keeps_of_allSteps (fun rc p rc' hall hwin hstep => ?_) (all_init _) hw hr
  obtain ⟨f', e, hh, hwf, hat, hother, -⟩ := rcHandlePacket_some handler hall.1 hstep
  have hk := hall.getD ⟨keeps_sized.fresh p, List.Pairwise.nil⟩ p.sport p.dport
  obtain ⟨f1, e1, hh1, hsized⟩ := keeps_sized.step _ p hk.1
  rw [hh] at hh1
  cases hh1
  exact hall.step hwf hat ⟨hsized, ascending_of_near hk.2 hwin.getD.2 hh⟩ hother

/-- One step of a windowed run. -/
theorem step_iff {rc : Rc} {p : Packet} (hall : rc.All Kept) (hw : Windowed rc p) :
    ∃ rc', rcHandlePacket rc p = some rc' ∧ (HeldAfterNext rc' ↔ EvictsApart rc p) ∧
      (HeldAfterNext rc' → rc'.All Kept) := by
  obtain ⟨f', e, hstep, hsized, hasc, hiff⟩ := step_kept (hall.getD (kept_fresh p) _ _) hw.getD
  obtain ⟨rc', hr, hwf, hat, hother, -⟩ := rcHandlePacket_spec handler hall.1 hstep
  have hheld : HeldAfterNext rc' ↔ ∀ x ∈ f'.held, before f'.expectedNext x.seq = true := by
    constructor
    · exact fun h => h _ _ f' hat
    · intro h s d g hg
      by_cases hk : s = p.sport ∧ d = p.dport
      · rw [hk.1, hk.2, hat] at hg
        cases hg
        exact h
      · rw [hother s d hk] at hg
        exact (hall.2 s d g hg).afterNext
  refine ⟨rc', hr, ?_, fun h => ?_⟩
  · rw [hheld, hiff, EvictsApart]
    rcases ho : rc.flow p.sport p.dport with _ | f
    · refine iff_of_true (fun lowest rest _ _ hnil => ?_) fun f _ _ hf => by simp at hf
      simp [RcFlowbuf.held, handler] at hnil
    · simp only [Option.getD_some, Option.some.injEq, forall_eq', forall_comm (α := RcFlowbuf)]
  · exact hall.step hwf hat ⟨hsized, hasc, hheld.mp h⟩ hother

/-- **No flow keeps a segment whose turn has come, if and only if full buffers evict apart**: along
a windowed run, every held segment is strictly after `expected_next` after every packet if and only
if, whenever a full buffer sends its lowest segment, the arriving and the other held segments lie
strictly after the end of that segment. -/
theorem heldAfterNext_iff {tr : List Packet} (hw : AllSteps rcHandlePacket Windowed Rc.init tr) :
    AllStates rcHandlePacket HeldAfterNext Rc.init tr ↔
      AllSteps rcHandlePacket EvictsApart Rc.init tr :=
  allStates_iff (fun _ _ hall hwin => step_iff hall hwin) (all_init Kept) hw

/-! ### A run with a missing packet -/

/-- Flows whose numbers lie low in the sequence space. -/
def Low (f : RcFlowbuf) : Prop :=
  f.expectedNext.toNat ≤ 1073741824 ∧ ∀ x ∈ f.held, x.seq.toNat ≤ 536870912

theorem near_of_le {a b : U32} (ha : a.toNat ≤ 1073741824) (hb : b.toNat ≤ 1073741824) :
    Near a b := by
  rw [Near, sdist_eq_sub (by omega) (by omega)]
  omega

theorem seqEnd_le {seq : U32} (size : U16) (h : seq.toNat ≤ 536870912) :
    (seqEnd seq size).toNat ≤ 1073741824 := by
  have := size.isLt
  have hle : (seqEnd seq size).toNat ≤ seq.toNat + size.toNat := by
    rw [seqEnd, BitVec.toNat_add, BitVec.toNat_setWidth]
    omega
  omega

theorem lastEnd_le {e : U32} {l : List RcFlowdata} (he : e.toNat ≤ 1073741824)
    (hl : ∀ x ∈ l, x.seq.toNat ≤ 536870912) : (lastEnd e l).toNat ≤ 1073741824 := by
  rcases List.eq_nil_or_concat l with rfl | ⟨l, z, rfl⟩
  · exact he
  · rw [List.concat_eq_append, lastEnd_concat]
    exact seqEnd_le _ (hl z (by simp))

theorem Low.step {f f' : RcFlowbuf} {p : Packet} {e : Effect} (hf : Low f)
    (hp : p.seq.toNat ≤ 536870912) (h : lowestFirst f p = some (f', e)) : Low f' := by
  have hnext : (nextAfter p).toNat ≤ 1073741824 := by
    unfold nextAfter
    split_ifs
    · rw [BitVec.toNat_add]
      exact (Nat.mod_le _ _).trans (by simp; omega)
    · exact seqEnd_le _ hp
  rcases lowestFirst_cases h with ⟨-, -, hheld, hexp, -⟩ | ⟨-, -, rfl, -⟩ |
    ⟨-, -, lowest, rest, hheld, -, rfl, -⟩ | ⟨-, -, -, rfl, -⟩
  · have happ := chain_append (nextAfter p) f.held
    refine ⟨?_, fun x hx => hf.2 x ?_⟩
    · rw [hexp]
      exact lastEnd_le hnext fun x hx => hf.2 x (by rw [← happ]; exact List.mem_append_left _ hx)
    · rw [← happ]
      exact List.mem_append_right _ (by rw [← hheld]; exact hx)
  · refine ⟨by rw [insertOrSendPacket_expectedNext]; exact hf.1, ?_⟩
    rw [forall_insertOrSendPacket f p.seq p.psize (·.toNat ≤ 536870912)]
    exact ⟨hp, hf.2⟩
  · have hmem : ∀ x ∈ lowest :: rest, x.seq.toNat ≤ 536870912 := hheld ▸ hf.2
    refine ⟨by rw [insertOrSendPacket_expectedNext]; exact seqEnd_le _ (hmem lowest (by simp)), ?_⟩
    rw [forall_insertOrSendPacket (sendPacketAt f lowest) p.seq p.psize (·.toNat ≤ 536870912)]
    refine ⟨hp, fun x hx => hmem x ?_⟩
    rw [sendPacketAt_held, hheld] at hx
    exact List.mem_cons_of_mem _ hx
  · exact hf

/-- Runs of packets low in the sequence space are windowed. -/
theorem windowed_of_low {tr : List Packet} (h : ∀ p ∈ tr, p.seq.toNat ≤ 536870912) :
    AllSteps rcHandlePacket Windowed Rc.init tr := by
  refine allSteps_of_inv (I := Rc.All Low) (fun rc p rc' hall hp hr => ?_)
    (fun rc p hall hp f hf => ?_) (all_init Low) h
  · obtain ⟨f', e, hstep, hwf, hat, hother, -⟩ := rcHandlePacket_some handler hall.1 hr
    have hfresh : Low (handler.fresh p) :=
      ⟨hp.trans (by omega), fun x hx => by simp [RcFlowbuf.held, handler] at hx⟩
    exact hall.step hwf hat ((hall.getD hfresh _ _).step hp hstep) hother
  · have hlow := hall.2 _ _ f hf
    exact ⟨near_of_le (hp.trans (by omega)) hlow.1, fun x hx =>
      near_of_le (hp.trans (by omega)) ((hlow.2 x hx).trans (by omega))⟩

/-- Segments of one byte, numbered from `0`. -/
def byteSegment (i : ℕ) : Packet := ⟨7, 9, 1, BitVec.ofNat 32 i, 16, 0⟩

def byteStream (n : ℕ) (hn : n < 2147483648) : Stream 7 9 where
  segs := (List.range n).map byteSegment
  flow := by simp [byteSegment]
  noSyn := by simp [byteSegment, Packet.syn, thSyn]
  payload := by simp [byteSegment]
  contiguous := by
    rw [List.isChain_iff_getElem]
    intro i hi
    simp [byteSegment, seqEnd, BitVec.ofNat_add]
  total := by simpa [byteSegment, Function.comp_def] using hn

theorem seg_byteStream {n i : ℕ} (hn : n < 2147483648) (h : i < n) :
    (byteStream n hn).seg i = byteSegment i := by
  have hlen : i < (byteStream n hn).segs.length := by simpa [byteStream] using h
  rw [Stream.seg, List.getD_eq_getElem _ _ hlen]
  simp [byteStream]

/-- Segment `1` is missing, and one more segment arrives than the buffer has places. -/
def skipTrace : List Packet := (0 :: List.range' 2 1025).map byteSegment

theorem arrivals_skip : ∀ k, arrivals (0 :: List.range' 2 k) = ⟨1, List.range' 2 k⟩
  | 0 => rfl
  | k + 1 => by
    rw [List.range'_concat, ← List.cons_append, arrivals_concat, arrivals_skip k, arrive,
      if_neg (by simp; omega)]
    have h := Stream.orderedInsert_append (i := 2 + 1 * k) (l := List.range' 2 k) (r := [])
      (fun x hx => by rw [List.mem_range'_1] at hx; omega) (by simp)
    rw [List.append_nil] at h
    rw [h]

theorem mem_skip {i k : ℕ} (h : i ∈ 0 :: List.range' 2 k) : i < k + 2 := by
  rcases List.mem_cons.mp h with rfl | h
  · omega
  · rw [List.mem_range'_1] at h
    omega

theorem skipTrace_windowed : AllSteps rcHandlePacket Windowed Rc.init skipTrace := by
  refine windowed_of_low fun p hp => ?_
  obtain ⟨i, hi, rfl⟩ := List.mem_map.mp hp
  have hlt := mem_skip hi
  rw [byteSegment, BitVec.toNat_ofNat, Nat.mod_eq_of_lt (by omega)]
  omega

/-- The buffer before the last packet of `skipTrace`. -/
theorem run_skip : ∃ rc f, run rcHandlePacket Rc.init ((0 :: List.range' 2 1024).map byteSegment) =
    some rc ∧ rc.flow 7 9 = some f ∧ f.expectedNext = 1 ∧ f.size = fbufSiz ∧
      f.held = (List.range' 2 1024).map fun j => ⟨BitVec.ofNat 32 j, 1⟩ := by
  have hnd : (0 :: List.range' 2 1024).Nodup := by
    rw [List.nodup_cons]
    exact ⟨by rw [List.mem_range'_1]; omega, List.nodup_range'⟩
  have hwait : ∀ pre ∈ (0 :: List.range' 2 1024).inits, (waiting pre).length ≤ 1024 := by
    intro pre hpre
    have hp := (List.mem_inits _ _).mp hpre
    rcases pre with _ | ⟨i, pre⟩
    · exact Nat.zero_le _
    · obtain ⟨rfl, htail⟩ := List.cons_prefix_cons.mp hp
      have hlen := htail.length_le
      rw [List.length_range'] at hlen
      rw [waiting, List.filter_cons_of_neg (by simp)]
      exact (List.length_filter_le _ _).trans hlen
  obtain ⟨rc, f, hr, hflow, hsim, -, -⟩ := run_stream (byteStream 1026 (by omega)) hnd
    (fun j hj => (mem_skip hj).trans_le (by simp [Stream.length, byteStream])) hwait wf_init
    (flow_init 7 9)
  have hseg : ∀ i ∈ 0 :: List.range' 2 1024,
      (byteStream 1026 (by omega)).seg i = byteSegment i :=
    fun i hi => seg_byteStream _ (mem_skip hi)
  rw [arrivals_skip] at hsim
  refine ⟨rc, f, by rw [← List.map_congr_left hseg]; exact hr, hflow, ?_, ?_, ?_⟩
  · rw [hsim.next, Stream.point_succ (i := 0) (by simp [Stream.length, byteStream]), Stream.point,
      hseg 0 (by simp)]
    rfl
  · rw [hsim.sized.1, hsim.held, List.length_map, List.length_range']
    rfl
  · rw [hsim.held]
    refine List.map_congr_left fun i hi => ?_
    rw [data, hseg i (List.mem_cons_of_mem _ hi)]
    rfl

theorem heldAfterNext_iff_skip : AllSteps rcHandlePacket Windowed Rc.init skipTrace ∧
    (AllStates rcHandlePacket HeldAfterNext Rc.init skipTrace ↔
      AllSteps rcHandlePacket EvictsApart Rc.init skipTrace) :=
  ⟨skipTrace_windowed, heldAfterNext_iff skipTrace_windowed⟩

/-- **One missing packet**: the run of `skipTrace` is windowed, and ends with a held segment whose
turn has come. -/
theorem not_heldAfterNext : AllSteps rcHandlePacket Windowed Rc.init skipTrace ∧
    ¬ AllStates rcHandlePacket HeldAfterNext Rc.init skipTrace := by
  refine ⟨skipTrace_windowed, fun h => ?_⟩
  have hsplit : skipTrace = (0 :: List.range' 2 1024).map byteSegment ++ [byteSegment 1026] := by
    rw [skipTrace, List.range'_concat, ← List.cons_append, List.map_append]
    rfl
  rw [allStates_iff (fun _ _ hall hwin => step_iff hall hwin) (all_init Kept) skipTrace_windowed,
    hsplit] at h
  obtain ⟨rc, f, hr, hflow, hnext, hsize, hheld⟩ := run_skip
  rw [List.range'_succ, List.map_cons] at hheld
  have hapart := (h.last hr) f _ _ hflow (by rw [hnext]; decide) hsize hheld (by decide)
  have hthree : (⟨3, 1⟩ : RcFlowdata) ∈ (List.range' (2 + 1) 1023).map fun j =>
      ⟨BitVec.ofNat 32 j, 1⟩ :=
    List.mem_map.mpr ⟨3, by rw [List.mem_range'_1]; omega, rfl⟩
  exact absurd (hapart.2 ⟨3, 1⟩ hthree) (by decide)

end DynBandwidth.Reorder.CounterWindow
