import DynBandwidth.Reorder.Counter
import DynBandwidth.Reorder.Segments

/-! # Streams through `reorder_counter.c`

On the segments of a `Stream`, arriving in any order that never needs more than `FBUF_SIZ` places,
`rc_handle_packet` simulates the resequencer of `Lib/Resequence.lean` (`sim_step`, `run_pre`): a
segment goes to the tree if and only if a lower one is still missing. Hence the whole stream is
sorted, and exactly the late segments are counted (`stream_sorted`). -/

namespace DynBandwidth.Reorder.CounterStream

open DynBandwidth.Lib.Serial DynBandwidth.Lib.RbTree DynBandwidth.Lib.Runs
open DynBandwidth.Lib.Resequence
open DynBandwidth.Reorder.Header DynBandwidth.Reorder.SeqTree DynBandwidth.Reorder.Flows
open DynBandwidth.Reorder.Counter DynBandwidth.Reorder.Segments
open DynBandwidth.Reorder.Segments.Stream

variable {s d : U16} {st : Stream s d}

/-- The record of the `j`-th segment in the tree. -/
def data (st : Stream s d) (j : ℕ) : RcFlowdata := ⟨(st.seg j).seq, (st.seg j).psize⟩

/-- The flow buffer holds the segments that the resequencer holds. -/
structure Sim (st : Stream s d) (r : State) (f : RcFlowbuf) : Prop where
  next : f.expectedNext = st.point r.next
  held : f.held = r.held.map (data st)
  sized : Sized f

/-! ### One segment -/

theorem data_end {j : ℕ} (h : j < st.length) :
    seqEnd (data st j).seq (data st j).segSize = st.point (j + 1) := by
  rw [point_succ h, ← seg_seq h]; rfl

theorem sdist_data {i j : ℕ} (h : j < st.length) :
    sdist (data st j).seq (st.point i) = st.off j - st.off i := by
  rw [← sdist_point, ← seg_seq h]; rfl

/-- The loop sends the run of held segments that continue the stream. -/
theorem chain_stream : ∀ (k m : ℕ) {rest : List ℕ}, m + k ≤ st.length →
    (∀ j ∈ rest, m + k < j ∧ j < st.length) →
    chain (st.point m) ((List.range' m k ++ rest).map (data st)) =
      ((List.range' m k).map (data st), rest.map (data st)) ∧
    lastEnd (st.point m) ((List.range' m k).map (data st)) = st.point (m + k)
  | 0, m, [], _, _ => ⟨rfl, rfl⟩
  | 0, m, j :: rest, _, hrest => by
    obtain ⟨h1, h2⟩ := hrest j (by simp)
    have hoff := off_lt (i := m) (by omega : m < j) h2.le
    refine ⟨?_, rfl⟩
    rw [List.range'_zero, List.nil_append, List.map_cons, chain, if_neg]
    · rfl
    · rw [le_iff_sdist, sdist_data h2]; omega
  | k + 1, m, rest, hm, hrest => by
    obtain ⟨h1, h2⟩ := chain_stream k (m + 1) (by omega)
      fun j hj => ⟨by have := hrest j hj; omega, (hrest j hj).2⟩
    have hlt : m < st.length := by omega
    rw [List.range'_succ, List.cons_append, List.map_cons, List.map_cons, chain, lastEnd,
      data_end hlt, if_pos, h1, h2]
    · exact ⟨rfl, by congr 1; omega⟩
    · rw [le_iff_sdist, sdist_data hlt]; omega

/-- **A segment of the stream** is handled as the resequencer handles its index. -/
theorem sim_step {pre : List ℕ} {r : State} {f : RcFlowbuf} {i : ℕ} (hs : Sim st r f)
    (hinv : Inv pre r) (hpre : ∀ j ∈ pre, j < st.length) (hi : i < st.length) (hnew : i ∉ pre)
    (hcap : (arrive r i).held.length ≤ 1024) :
    ∃ f' e, lowestFirst f (st.seg i) = some (f', e) ∧ Sim st (arrive r i) f' ∧
      ((i = r.next ∧ ∃ k rest, r.held = List.range' (r.next + 1) k ++ rest ∧
          (arrive r i).next = r.next + 1 + k ∧
          e = ⟨0, (List.range' (r.next + 1) k).map (data st)⟩) ∨
        (i ≠ r.next ∧ (arrive r i).next = r.next ∧ e = ⟨1, []⟩)) := by
  obtain ⟨f', e, hstep, hsized⟩ := keeps_sized.step f (st.seg i) hs.sized
  have hheld : ∀ j ∈ r.held, j < st.length := fun j hj => hpre j ((hinv.arrived j).mpr (Or.inr hj))
  have hdist : sdist (st.seg i).seq f.expectedNext = st.off i - st.off r.next := by
    rw [hs.next, seg_seq hi, sdist_point]
  refine ⟨f', e, hstep, ?_⟩
  by_cases hne : i = r.next
  · subst hne
    obtain ⟨k, rest, h1, h2, h3⟩ := hinv.arrive_next
    have hnext : nextAfter (st.seg r.next) = st.point (r.next + 1) := by
      rw [nextAfter_eq (st.noSyn _ (seg_mem hi)), point_succ hi, ← seg_seq hi]
    have hk : r.next + 1 + k ≤ st.length := by
      rcases Nat.eq_zero_or_pos k with rfl | hk
      · omega
      · have := hheld (r.next + k) (by rw [h1]; simp; omega)
        omega
    obtain ⟨c1, c2⟩ := chain_stream k (r.next + 1) hk
      fun j hj => ⟨h2 j hj, hheld j (by rw [h1]; simp [hj])⟩
    rw [← h1, ← hs.held, ← hnext] at c1
    rw [← hnext] at c2
    rcases lowestFirst_cases hstep with ⟨-, he, hheld', hexp, -⟩ | ⟨hgt, -⟩ | ⟨hgt, -⟩ | ⟨hgt, -⟩
    · rw [c1] at he hheld' hexp
      rw [h3]
      exact ⟨⟨by rw [hexp]; exact c2, hheld', hsized⟩, Or.inl ⟨rfl, k, rest, h1, rfl, he⟩⟩
    all_goals omega
  · have hlt := hinv.next_lt hnew hne
    have hoff := off_lt hlt hi.le
    have hnot : i ∉ r.held := fun hm => hnew ((hinv.arrived i).mpr (Or.inr hm))
    have harr : arrive r i = ⟨r.next, r.held.orderedInsert (· ≤ ·) i⟩ := by rw [arrive, if_neg hne]
    have hroom : f.size < fbufSiz := by
      rw [hs.sized.lt_iff, hs.held, List.length_map]
      rw [harr, List.orderedInsert_length] at hcap
      exact hcap
    obtain ⟨t1, t2⟩ := insertSeq_stream RcFlowdata.seq (data st)
      (fun j hj => seg_seq hj) hs.held hheld hinv.sorted hi hnot (retransmit (st.seg i).psize)
    rw [← seg_seq hi] at t1 t2
    rcases lowestFirst_cases hstep with ⟨hle, -⟩ | ⟨-, -, rfl, rfl⟩ | ⟨-, hfull, -⟩ | ⟨-, hfull, -⟩
    · omega
    · refine ⟨⟨?_, ?_, hsized⟩, Or.inr ⟨hne, by rw [harr], ?_⟩⟩
      · rw [insertOrSendPacket_expectedNext, hs.next, harr]
      · rw [insertOrSendPacket_held, harr]
        exact t1
      · rw [insertOrSendPacket_counted_of_none _ _ _ t2]
    all_goals exact absurd hroom hfull

/-! ### Whole orders -/

/-- **The simulation along an order of arrival.** -/
theorem run_pre {ord : List ℕ} (hnd : ord.Nodup) (hlt : ∀ j ∈ ord, j < st.length)
    (hwait : ∀ pre ∈ ord.inits, (waiting pre).length ≤ 1024) :
    ∀ pre, pre <+: ord → ∃ f,
      run handler.flowStep ⟨some (handler.fresh (st.seg 0)), 0, []⟩ (pre.map st.seg) =
        some ⟨some f, BitVec.ofNat 64 (pre.countP (late ord)),
          ((List.range (arrivals pre).next).filter (late ord)).map (data st)⟩ ∧
      Sim st (arrivals pre) f := by
  refine arrivals_induction hnd hwait ?_ ?_
  · refine ⟨_, rfl, ⟨?_, rfl, ⟨rfl, Nat.zero_le _⟩⟩⟩
    show (st.seg 0).seq = st.point 0
    simp [point, off]
  · rintro pre i hp hndp hi hcap ⟨f, hrun, hsim⟩
    have hsub : ∀ j ∈ pre ++ [i], j ∈ ord := fun j hj => hp.subset hj
    obtain ⟨f', e, hstep, hsim', hcase⟩ := sim_step hsim (inv_arrivals hndp)
      (fun j hj => hlt j (hsub j (by simp [hj]))) (hlt i (hsub i (by simp))) hi hcap
    obtain ⟨post, hpost⟩ := hp
    rw [List.append_assoc, List.singleton_append] at hpost
    have hlate : late ord i ↔ i ≠ (arrivals pre).next := by rw [← hpost, late_iff hndp hi]
    refine ⟨f', ?_, by rw [arrivals_concat]; exact hsim'⟩
    rw [List.map_append, List.map_singleton]
    refine run_concat hrun ((flowStep_buf handler hstep _ _).trans ?_)
    rw [List.countP_append, arrivals_concat]
    rcases hcase with ⟨heq, k, rest, hheld, hnext, rfl⟩ | ⟨hne, hnext, rfl⟩
    · subst heq
      have hnl : ¬ late ord (arrivals pre).next := fun h => hlate.mp h rfl
      rw [hnext, List.countP_singleton, if_neg (by simpa using hnl), ← hpost,
        filter_late_range hndp hheld, List.map_append]
      simp
    · rw [hnext, List.countP_singleton, if_pos (by simpa using hlate.mpr hne), BitVec.ofNat_add]
      simp

/-- The simulation on a flow that has no buffer yet: the first segment makes the buffer from which
`run_pre` starts. -/
theorem run_stream (st : Stream s d) {post : List ℕ} (hnd : (0 :: post).Nodup)
    (hlt : ∀ j ∈ 0 :: post, j < st.length)
    (hwait : ∀ pre ∈ (0 :: post).inits, (waiting pre).length ≤ 1024) {rc : Rc} (hwf : rc.WF)
    (hfresh : rc.flow s d = none) :
    ∃ rc' f, run rcHandlePacket rc ((0 :: post).map st.seg) = some rc' ∧ rc'.flow s d = some f ∧
      Sim st (arrivals (0 :: post)) f ∧
      rc'.sent = rc.sent ++
        ((List.range (arrivals (0 :: post)).next).filter (late (0 :: post))).map (data st) ∧
      rc'.reorderCount =
        rc.reorderCount + BitVec.ofNat 64 ((0 :: post).countP (late (0 :: post))) := by
  obtain ⟨f, hrun, hsim⟩ := run_pre hnd hlt hwait _ (List.prefix_refl (0 :: post))
  have hrun' : run handler.flowStep ⟨none, 0, []⟩ ((0 :: post).map st.seg) = _ := hrun
  obtain ⟨rc', hr, -, hflow, -, hcount, l, hl1, hl2⟩ := run_single handler hwf (s := s) (d := d)
    (fun p hp => by
      obtain ⟨i, hi, rfl⟩ := List.mem_map.mp hp
      exact st.flow _ (seg_mem (hlt i hi))) hfresh hrun'
  simp only [List.nil_append] at hl2
  exact ⟨rc', f, hr, hflow, hsim, by rw [hl1, ← hl2], (add_zero _).symm.trans hcount⟩

theorem length_lt (st : Stream s d) : st.length < 2147483648 := by
  refine lt_of_le_of_lt ?_ st.total
  have h := List.length_le_sum_of_one_le (st.segs.map fun p => p.psize.toNat) fun n hn => by
    obtain ⟨p, hp, rfl⟩ := List.mem_map.mp hn
    exact st.payload p hp
  rwa [List.length_map] at h

/-- **Any arrival order of a stream is sorted and counted**: on a flow the counter has not seen, the
stream ends with `expected_next` at its end and nothing held, the held segments have been sent in
the order of the stream, and the count has grown by the number of segments that came before a lower
one. -/
theorem stream_sorted (st : Stream s d) {ord : List ℕ} (hord : ord.Perm (List.range st.length))
    (hfirst : ord.head? = some 0) (hwait : ∀ pre ∈ ord.inits, (waiting pre).length ≤ 1024)
    {tr : List Packet} {rc : Rc} (hrc : run rcHandlePacket Rc.init tr = some rc)
    (hfresh : rc.flow s d = none) :
    ∃ rc' f last, run rcHandlePacket rc (ord.map st.seg) = some rc' ∧
      rc'.flow s d = some f ∧ st.segs.getLast? = some last ∧
      f.expectedNext = seqEnd last.seq last.psize ∧ f.root = .nil ∧ f.size = 0 ∧
      rc'.sent = rc.sent ++ ((List.range st.length).filter (late ord)).map (data st) ∧
      (rc'.reorderCount - rc.reorderCount).toNat = (List.range st.length).countP (late ord) := by
  obtain ⟨post, rfl⟩ := List.head?_eq_some_iff.mp hfirst
  have hlt : ∀ j ∈ 0 :: post, j < st.length := fun j hj => List.mem_range.mp (hord.mem_iff.mp hj)
  obtain ⟨rc', f, hr, hflow, hsim, hsent, hcount⟩ := run_stream st
    (hord.nodup_iff.mpr List.nodup_range) hlt hwait (keeps_sized.of_run hrc).1 hfresh
  rw [arrivals_perm hord] at hsim hsent
  obtain ⟨last, hlast⟩ : ∃ last, st.segs.getLast? = some last :=
    ⟨_, List.getLast?_eq_getLast_of_ne_nil (List.length_pos_iff.mp (hlt 0 (by simp)))⟩
  refine ⟨rc', f, last, hr, hflow, hlast, ?_, toList_eq_nil.mp hsim.held, ?_, hsent, ?_⟩
  · rw [hsim.next, point_length hlast]
  · rw [hsim.sized.1, hsim.held]; rfl
  · have hle : (List.range st.length).countP (late (0 :: post)) ≤ st.length := by
      simpa using List.countP_le_length (p := fun i => decide (late (0 :: post) i))
        (l := List.range st.length)
    have hlen := length_lt st
    rw [hcount, add_sub_cancel_left, hord.countP_eq, BitVec.toNat_ofNat,
      Nat.mod_eq_of_lt (by omega)]

theorem stream_sorted_wrap : ∃ rc f, run rcHandlePacket Rc.init ([0, 2, 1].map wrapStream.seg) =
    some rc ∧ rc.flow 7 9 = some f ∧ f.expectedNext = 24 ∧ f.root = .nil ∧
    rc.sent = [⟨4, 20⟩] ∧ rc.reorderCount.toNat = 1 := by
  obtain ⟨rc, f, last, hr, hflow, hlast, hnext, hroot, -, hsent, hcount⟩ :=
    stream_sorted wrapStream (show [0, 2, 1].Perm (List.range 3) by decide) rfl (by decide)
      (show run rcHandlePacket Rc.init [] = some Rc.init from rfl) (flow_init 7 9)
  cases hlast
  refine ⟨rc, f, hr, hflow, hnext, hroot, hsent, ?_⟩
  rw [show rc.reorderCount = rc.reorderCount - Rc.init.reorderCount from (sub_zero _).symm, hcount]
  decide

end DynBandwidth.Reorder.CounterStream
