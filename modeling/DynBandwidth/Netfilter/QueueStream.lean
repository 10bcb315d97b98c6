import DynBandwidth.Netfilter.Queue
import DynBandwidth.Reorder.Segments

/-! # Streams through the resequencing stage of `nfqueue.c`

The stage compares sequence numbers around the circle, but raises `expected_next` only to larger
unsigned numbers. On a `Stream` that does not reach `2 ^ 32` it simulates the resequencer of
`Lib/Resequence.lean` (`sim_step`), in any order of arrival that never needs more than `FBUF_SIZ`
places. On a stream across `2 ^ 32`, `expected_next` cannot follow (`le_resequence`). So the stage
accepts the packets in the order of the stream, ends with an empty tree and with `expected_next` at
the end of the stream, if and only if the stream ends before `2 ^ 32` (`delivers_iff`). -/

namespace DynBandwidth.Netfilter.QueueStream

open DynBandwidth.Lib.Serial DynBandwidth.Lib.RbTree DynBandwidth.Lib.Runs
open DynBandwidth.Lib.Resequence
open DynBandwidth.Reorder.Header DynBandwidth.Reorder.SeqTree DynBandwidth.Reorder.Segments
open DynBandwidth.Reorder.Segments.Stream
open DynBandwidth.Netfilter.Stage DynBandwidth.Netfilter.Queue

variable {s d : U16} {st : Stream s d}

/-! ### `expected_next` as an unsigned number -/

theorem le_raise (e seq : U32) (segSize : U16) : e.toNat ≤ (raise e seq segSize).toNat := by
  unfold raise
  split_ifs with h
  · exact (BitVec.lt_def.mp h).le
  · exact le_rfl

theorem le_reach : ∀ (e : U32) (l : List NfqFlowdata), e.toNat ≤ (reach e l).toNat
  | _, [] => le_rfl
  | e, x :: l => (le_raise e x.seq x.segSize).trans (le_reach _ l)

/-- Without SYN, `expected_next` never decreases as an unsigned number. -/
theorem le_resequence {now : ℚ} {queue : QHandle} {f f' : NfqFlowbuf} {id : U32} {p : Packet}
    {calls : List Call} (hp : p.syn = false)
    (h : resequence now queue f id p = some (f', calls)) :
    f.expectedNext.toNat ≤ f'.expectedNext.toNat := by
  rcases resequence_cases h with ⟨-, sent, rest, -, -, -, hexp, -⟩ | ⟨-, -, rfl, -⟩ |
    ⟨-, -, x, xs, -, -, rfl, -⟩ | ⟨-, -, -, rfl, -⟩
  · rw [hexp, nextOnArrival, hp]
    exact (le_raise _ _ _).trans (le_reach _ _)
  · rw [insertOrSendPacket_expectedNext]
  · rw [insertOrSendPacket_expectedNext]
    exact le_raise _ _ _
  · exact le_rfl

/-! ### One segment -/

/-- The stream ends before `2 ^ 32`. -/
def NoWrap (st : Stream s d) : Prop := (st.seg 0).seq.toNat + st.off st.length < 2 ^ 32

theorem off_le {i : ℕ} (h : i ≤ st.length) : st.off i ≤ st.off st.length := by
  rcases h.lt_or_eq with hlt | rfl
  · exact (off_lt hlt le_rfl).le
  · exact le_rfl

theorem point_toNat (hst : NoWrap st) {i : ℕ} (h : i ≤ st.length) :
    (st.point i).toNat = (st.seg 0).seq.toNat + st.off i := by
  have hle := off_le h
  have hlt := off_total st i
  unfold NoWrap at hst
  rw [point, BitVec.toNat_add, BitVec.toNat_ofNat, Nat.mod_eq_of_lt (a := st.off i) (by omega),
    Nat.mod_eq_of_lt (by omega)]

/-- A segment raises `expected_next` from its number to its end. -/
theorem raise_point (hst : NoWrap st) {i : ℕ} (h : i < st.length) :
    raise (st.point i) (st.seg i).seq (st.seg i).psize = st.point (i + 1) := by
  have hlt := off_lt (Nat.lt_succ_self i) h
  rw [raise, seg_seq h, ← point_succ h, if_pos]
  rw [gt_iff_lt, BitVec.lt_def, point_toNat hst h.le, point_toNat hst h]
  omega

/-- The record of the `j`-th segment in the tree. -/
def data (st : Stream s d) (id : ℕ → U32) (j : ℕ) : NfqFlowdata :=
  ⟨(st.seg j).seq, id j, (st.seg j).psize⟩

/-- The flow buffer holds the segments that the resequencer holds. -/
structure Sim (st : Stream s d) (id : ℕ → U32) (r : State) (f : NfqFlowbuf) : Prop where
  next : f.expectedNext = st.point r.next
  held : f.held = r.held.map (data st id)
  sized : Sized f

theorem data_seq (id : ℕ → U32) {j : ℕ} (h : j < st.length) : (data st id j).seq = st.point j :=
  seg_seq h

/-- The loop sends the run of held segments that continue the stream. -/
theorem chain_stream (hst : NoWrap st) (id : ℕ → U32) : ∀ (k m : ℕ) {rest : List ℕ},
    m + k ≤ st.length → (∀ j ∈ rest, m + k < j ∧ j < st.length) →
    chain (st.point m) ((List.range' m k ++ rest).map (data st id)) =
      ((List.range' m k).map (data st id), rest.map (data st id)) ∧
    reach (st.point m) ((List.range' m k).map (data st id)) = st.point (m + k)
  | 0, m, [], _, _ => ⟨rfl, rfl⟩
  | 0, m, j :: rest, _, hrest => by
    obtain ⟨h1, h2⟩ := hrest j (by simp)
    have hoff := off_lt (i := m) (by omega : m < j) h2.le
    have hne : st.point j ≠ st.point m := fun heq => by
      have := sdist_point st j m
      rw [heq, sdist_self] at this
      omega
    refine ⟨?_, rfl⟩
    rw [List.range'_zero, List.nil_append, List.map_cons, chain, data_seq id h2, if_neg (by simpa)]
    rfl
  | k + 1, m, rest, hm, hrest => by
    obtain ⟨h1, h2⟩ := chain_stream hst id k (m + 1) (by omega)
      fun j hj => ⟨by have := hrest j hj; omega, (hrest j hj).2⟩
    have hlt : m < st.length := by omega
    have hraise : raise (st.point m) (data st id m).seq (data st id m).segSize = st.point (m + 1) :=
      raise_point hst hlt
    rw [List.range'_succ, List.cons_append, List.map_cons, List.map_cons, chain, reach, hraise,
      if_pos (by rw [data_seq id hlt]; simp), h1, h2]
    exact ⟨rfl, by congr 1; omega⟩

/-- **A segment of the stream** is handled as the resequencer handles its index: the calls accept
what the resequencer passes on. -/
theorem sim_step (hst : NoWrap st) {id : ℕ → U32} {pre : List ℕ} {r : State} {f : NfqFlowbuf}
    {i : ℕ}
    (hs : Sim st id r f) (hinv : Inv pre r) (hpre : ∀ j ∈ pre, j < st.length) (hi : i < st.length)
    (hnew : i ∉ pre) (hcap : (arrive r i).held.length ≤ 256) (now : ℚ) (queue : QHandle) :
    ∃ f' calls, resequence now queue f (id i) (st.seg i) = some (f', calls) ∧
      Sim st id (arrive r i) f' ∧
      calls = (List.range' r.next ((arrive r i).next - r.next)).map fun j =>
        ⟨queue, id j, .accept⟩ := by
  obtain ⟨f', calls, hstep, hsized⟩ := hs.sized.resequence now queue (id i) (st.seg i)
  have hheld : ∀ j ∈ r.held, j < st.length := fun j hj => hpre j ((hinv.arrived j).mpr (Or.inr hj))
  have hdist : sdist (st.seg i).seq f.expectedNext = st.off i - st.off r.next := by
    rw [hs.next, seg_seq hi, sdist_point]
  refine ⟨f', calls, hstep, ?_⟩
  by_cases hne : i = r.next
  · subst hne
    obtain ⟨k, rest, h1, h2, h3⟩ := hinv.arrive_next
    have hnext : nextOnArrival f.expectedNext (st.seg r.next) = st.point (r.next + 1) := by
      rw [nextOnArrival, st.noSyn _ (seg_mem hi), if_neg (by simp), hs.next, raise_point hst hi]
    have hk : r.next + 1 + k ≤ st.length := by
      rcases Nat.eq_zero_or_pos k with rfl | hk
      · omega
      · have := hheld (r.next + k) (by rw [h1]; simp; omega)
        omega
    obtain ⟨c1, c2⟩ := chain_stream hst id k (r.next + 1) hk
      fun j hj => ⟨h2 j hj, hheld j (by rw [h1]; simp [hj])⟩
    rw [← h1, ← hs.held, ← hnext] at c1
    rcases resequence_cases hstep with
      ⟨-, sent, rest', hchain, hcalls, hheld', hexp, -⟩ | ⟨hgt, -⟩ |
      ⟨hgt, -⟩ | ⟨hgt, -⟩
    · rw [c1, Prod.mk.injEq] at hchain
      obtain ⟨rfl, rfl⟩ := hchain
      rw [hnext] at hexp
      rw [h3]
      refine ⟨⟨hexp.trans c2, hheld', hsized⟩, ?_⟩
      rw [hcalls, show r.next + 1 + k - r.next = k + 1 by omega, List.range'_succ, List.map_map]
      rfl
    all_goals omega
  · have hlt := hinv.next_lt hnew hne
    have hoff := off_lt hlt hi.le
    have hnot : i ∉ r.held := fun hm => hnew ((hinv.arrived i).mpr (Or.inr hm))
    have harr : arrive r i = ⟨r.next, r.held.orderedInsert (· ≤ ·) i⟩ := by rw [arrive, if_neg hne]
    have hroom : f.size < fbufSiz := by
      rw [hs.sized.lt_iff, hs.held, List.length_map]
      rw [harr, List.orderedInsert_length] at hcap
      exact hcap
    obtain ⟨t1, t2⟩ := insertSeq_stream NfqFlowdata.seq (data st id)
      (fun j hj => seg_seq hj) hs.held hheld hinv.sorted hi hnot
      (retransmit (id i) (st.seg i).psize)
    rw [← seg_seq hi] at t1 t2
    rcases resequence_cases hstep with ⟨hle, -⟩ | ⟨-, -, rfl, rfl⟩ | ⟨-, hfull, -⟩ | ⟨-, hfull, -⟩
    · omega
    · refine ⟨⟨?_, ?_, hsized⟩, ?_⟩
      · rw [insertOrSendPacket_expectedNext, hs.next, harr]
      · rw [insertOrSendPacket_held, harr]
        exact t1
      · rw [insertOrSendPacket_calls_of_none now queue f _ _ _ t2, harr, Nat.sub_self]
        rfl
    all_goals exact absurd hroom hfull

/-! ### Whole orders -/

/-- The arrival of a segment at its own time. -/
def arrival (st : Stream s d) (queue : QHandle) (now : ℕ → ℚ) (id : ℕ → U32) (i : ℕ) : Arrival :=
  ⟨now i, queue, id i, st.seg i⟩

/-- The accepting verdict for a segment. -/
def acceptAt (queue : QHandle) (id : ℕ → U32) (i : ℕ) : Call := ⟨queue, id i, .accept⟩

section Orders
variable (queue : QHandle) (now : ℕ → ℚ) (id : ℕ → U32) {ord : List ℕ}

theorem range_append_range {a b : ℕ} (h : a ≤ b) :
    List.range a ++ List.range' a (b - a) = List.range b := by
  have happ := List.range'_append_1 (s := 0) (m := a) (n := b - a)
  rw [Nat.zero_add, Nat.add_sub_cancel' h] at happ
  rw [List.range_eq_range', List.range_eq_range', happ]

/-- **The simulation along an order of arrival.** -/
theorem run_pre (hst : NoWrap st) (hnd : ord.Nodup) (hlt : ∀ j ∈ ord, j < st.length)
    (hwait : ∀ pre ∈ ord.inits, (waiting pre).length ≤ 256) :
    ∀ pre, pre <+: ord → ∃ f, run flowStep ⟨some (startFlowbuf (now 0) (st.seg 0).seq), []⟩
        (pre.map (arrival st queue now id)) =
        some ⟨some f, (List.range (arrivals pre).next).map (acceptAt queue id)⟩ ∧
      Sim st id (arrivals pre) f := by
  refine arrivals_induction hnd hwait ?_ ?_
  · refine ⟨_, rfl, ⟨?_, rfl, ⟨rfl, Nat.zero_le _⟩⟩⟩
    show (st.seg 0).seq = st.point 0
    simp [point, off]
  · rintro pre i hp hndp hi hcap ⟨f, hrun, hsim⟩
    have hsub : ∀ j ∈ pre ++ [i], j ∈ ord := fun j hj => hp.subset hj
    obtain ⟨f', calls, hstep, hsim', hcalls⟩ := sim_step hst hsim (inv_arrivals hndp)
      (fun j hj => hlt j (hsub j (by simp [hj]))) (hlt i (hsub i (by simp))) hi hcap (now i) queue
    refine ⟨f', ?_, by rw [arrivals_concat]; exact hsim'⟩
    rw [List.map_append, List.map_singleton]
    refine run_concat hrun ((flowStep_buf (a := arrival st queue now id i) hstep _).trans ?_)
    rw [hcalls, arrivals_concat, ← range_append_range ((inv_arrivals hndp).next_le i),
      List.map_append]
    rfl

/-- Along any order, `expected_next` stays at or above the number of the first segment. -/
theorem run_above (st : Stream s d) (hlt : ∀ j ∈ ord, j < st.length) (f : NfqFlowbuf)
    (hf : Sized f) (l : List Call) :
    ∃ f' l', run flowStep ⟨some f, l⟩ (ord.map (arrival st queue now id)) = some ⟨some f', l'⟩ ∧
      f.expectedNext.toNat ≤ f'.expectedNext.toNat := by
  obtain ⟨⟨buf, l'⟩, hr, f', rfl, -, hle⟩ := run_total
    (I := fun x : FlowState => ∃ g, x.buf = some g ∧ Sized g ∧
      f.expectedNext.toNat ≤ g.expectedNext.toNat)
    (s := ⟨some f, l⟩) (ord.map (arrival st queue now id)) (fun a ha x hx => by
      obtain ⟨i, hi, rfl⟩ := List.mem_map.mp ha
      obtain ⟨g, hg, hsized, hle⟩ := hx
      obtain ⟨g', calls, hstep, hsized'⟩ := hsized.resequence (now i) queue (id i) (st.seg i)
      obtain ⟨buf, l⟩ := x
      cases hg
      exact ⟨_, flowStep_buf (a := arrival st queue now id i) hstep l, g', rfl, hsized',
        hle.trans (le_resequence (st.noSyn _ (seg_mem (hlt i hi))) hstep)⟩) ⟨f, rfl, hf, le_rfl⟩
  exact ⟨f', l', hr, hle⟩

end Orders

theorem off_length (st : Stream s d) :
    st.off st.length = (st.segs.map fun p => p.psize.toNat).sum := by
  rw [off, length, List.take_length]

/-- **When the stage delivers a stream**: on a flow that has no buffer, the segments arriving in an
order that begins with the first one and never has more than `FBUF_SIZ` of them waiting are accepted
once each in the order of the stream, ending with an empty tree and `expected_next` at the end of
the stream, if and only if the stream ends before `2 ^ 32`. -/
theorem delivers_iff (st : Stream s d) {ord : List ℕ} (hord : ord.Perm (List.range st.length))
    (hfirst : ord.head? = some 0) (hwait : ∀ pre ∈ ord.inits, (waiting pre).length ≤ 256)
    {evs : List Event} {nfq : Nfq} (hrun : run step Nfq.init evs = some nfq)
    (hfresh : nfq.flow s d = none) (queue : QHandle) (now : ℕ → ℚ) (id : ℕ → U32) :
    ∃ nfq' f last, run step nfq ((ord.map (arrival st queue now id)).map Event.packet) = some nfq' ∧
      nfq'.flow s d = some f ∧ st.segs.getLast? = some last ∧
      ((nfq'.calls = nfq.calls ++ (List.range st.length).map (acceptAt queue id) ∧ f.root = .nil ∧
          f.expectedNext = seqEnd last.seq last.psize) ↔
        (st.seg 0).seq.toNat + (st.segs.map fun p => p.psize.toNat).sum < 2 ^ 32) := by
  obtain ⟨post, rfl⟩ := List.head?_eq_some_iff.mp hfirst
  have hlt : ∀ j ∈ 0 :: post, j < st.length := fun j hj => List.mem_range.mp (hord.mem_iff.mp hj)
  obtain ⟨last, hlast⟩ : ∃ last, st.segs.getLast? = some last :=
    ⟨_, List.getLast?_eq_getLast_of_ne_nil (List.length_pos_iff.mp (hlt 0 (by simp)))⟩
  obtain ⟨f, l, hr, habove⟩ := run_above queue now id st hlt
    (startFlowbuf (now 0) (st.seg 0).seq) (keeps_sized.start _ _) []
  have hr' : run flowStep ⟨none, []⟩ ((0 :: post).map (arrival st queue now id)) = _ := hr
  obtain ⟨nfq', hr1, -, hflow, l', hl1, hl2⟩ := run_single (keeps_sized.of_run hrun).1 (s := s)
    (d := d) (fun a ha => by
      obtain ⟨i, hi, rfl⟩ := List.mem_map.mp ha
      exact st.flow _ (seg_mem (hlt i hi))) hfresh hr'
  refine ⟨nfq', f, last, hr1, hflow, hlast, ?_⟩
  rw [← off_length]
  constructor
  · rintro ⟨-, -, hnext⟩
    by_contra hwrap
    have htotal := off_total st st.length
    have hstart : (startFlowbuf (now 0) (st.seg 0).seq).expectedNext = (st.seg 0).seq := rfl
    rw [hnext, ← point_length hlast, point, BitVec.toNat_add, BitVec.toNat_ofNat, hstart] at habove
    have := (st.seg 0).seq.isLt
    omega
  · intro hst
    obtain ⟨g, hg, hsim⟩ := run_pre queue now id hst (hord.nodup_iff.mpr List.nodup_range) hlt
      hwait _ (List.prefix_refl (0 :: post))
    rw [hg, arrivals_perm hord] at hr
    rw [arrivals_perm hord] at hsim
    simp only [Option.some.injEq, FlowState.mk.injEq] at hr
    obtain ⟨rfl, rfl⟩ := hr
    refine ⟨?_, toList_eq_nil.mp hsim.held, by rw [hsim.next, point_length hlast]⟩
    rw [hl1, ← List.nil_append l', ← hl2]

/-- Three segments far from the end of the sequence space. -/
def lowStream : Stream 7 9 where
  segs := [⟨7, 9, 10, 1000, 16, 0⟩, ⟨7, 9, 10, 1010, 16, 0⟩, ⟨7, 9, 20, 1020, 16, 0⟩]
  flow := by decide
  noSyn := by decide
  payload := by decide
  contiguous := by decide
  total := by decide

theorem delivers_low : ∃ nfq f, run step Nfq.init
      (([0, 2, 1].map (arrival lowStream none (fun _ => 0) (BitVec.ofNat 32))).map Event.packet) =
      some nfq ∧ nfq.flow 7 9 = some f ∧
    nfq.calls = [⟨none, 0, .accept⟩, ⟨none, 1, .accept⟩, ⟨none, 2, .accept⟩] ∧ f.root = .nil ∧
    f.expectedNext = 1040 := by
  obtain ⟨nfq, f, last, hr, hflow, hlast, hiff⟩ := delivers_iff lowStream
    (show [0, 2, 1].Perm (List.range 3) by decide) rfl (by decide)
    (show run step Nfq.init [] = some Nfq.init from rfl) (flow_init 7 9) none (fun _ => 0)
    (BitVec.ofNat 32)
  cases hlast
  obtain ⟨h1, h2, h3⟩ := hiff.mpr (by decide)
  exact ⟨nfq, f, hr, hflow, h1, h2, h3⟩

/-- **A stream across `2 ^ 32` gets stuck**: of three segments arriving in order, the last one is
held and gets no verdict, since `expected_next` stays at the start of the segment that wraps. -/
theorem not_delivers_wrap : [0, 1, 2].Perm (List.range wrapStream.length) ∧
    (∀ pre ∈ [0, 1, 2].inits, (waiting pre).length ≤ 256) ∧
    ∃ nfq f, run step Nfq.init (([0, 1, 2].map
        (arrival wrapStream none (fun _ => 0) (BitVec.ofNat 32))).map Event.packet) = some nfq ∧
      nfq.flow 7 9 = some f ∧
      nfq.calls = [⟨none, 0, .accept⟩, ⟨none, 1, .accept⟩] ∧ f.held = [⟨4, 2, 20⟩] ∧
      f.expectedNext = 4294967290 := by
  have hrun : ∃ f, run flowStep ⟨none, []⟩
      ([0, 1, 2].map (arrival wrapStream none (fun _ => 0) (BitVec.ofNat 32))) =
      some ⟨some f, [⟨none, 0, .accept⟩, ⟨none, 1, .accept⟩]⟩ ∧ f.held = [⟨4, 2, 20⟩] ∧
      f.expectedNext = 4294967290 := ⟨_, rfl, by decide, by decide⟩
  obtain ⟨f, hr, hheld, hnext⟩ := hrun
  obtain ⟨nfq, hr', -, hflow, l, hcalls, hl⟩ := run_single (s := 7) (d := 9) wf_init
    (List.forall_mem_map.mpr (by decide)) (flow_init 7 9) hr
  rw [List.nil_append] at hl
  exact ⟨by decide, by decide, nfq, f, hr', hflow, hcalls.trans (by rw [← hl]; rfl), hheld, hnext⟩

end DynBandwidth.Netfilter.QueueStream
