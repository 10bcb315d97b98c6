import DynBandwidth.Reorder.Flows

/-! # `tcp_reordercounter.c`

The counter without a buffer: a packet before `expected_next` is counted, any other packet moves
`expected_next` to its end.

Read with true sequence numbers, which do not wrap, this counts the packets below the highest end
seen so far; the 32-bit counter refines it as long as each number is within half a turn of the
expected one (`refines_true_numbers`). The flow of a pair of ports is never removed, so a new
connection on the same ports starts with what the old one left: the count of the new connection does
not depend on the old one if and only if the initial number is not before the old `expected_next`
(`reuse_iff`). -/

namespace DynBandwidth.Reorder.TcpCounter

open DynBandwidth.Lib.Serial DynBandwidth.Lib.RbTree DynBandwidth.Lib.Runs
open DynBandwidth.Reorder.Header DynBandwidth.Reorder.Flows

/-- `rc_handle_packet` on the flow buffer of the packet. -/
def countBefore (fbuf : RcFlowbuf) (p : Packet) : Option (RcFlowbuf × Effect) :=
  if before p.seq fbuf.expectedNext then some (fbuf, ⟨1, []⟩)
  else some ({ fbuf with expectedNext := nextAfter p }, ⟨0, []⟩)

def handler : Handler := ⟨fun p => ⟨0, p.seq, .nil⟩, countBefore⟩

/-- **`rc_handle_packet`.** -/
def rcHandlePacket : Rc → Packet → Option Rc := handler.rcHandlePacket

/-- This program never uses the buffer. -/
def Plain (f : RcFlowbuf) : Prop := f.size = 0 ∧ f.root = .nil

theorem keeps_plain : handler.Keeps Plain where
  fresh _ := ⟨rfl, rfl⟩
  step f p hf := by
    by_cases h : before p.seq f.expectedNext = true
    · exact ⟨f, ⟨1, []⟩, if_pos h, hf⟩
    · exact ⟨{ f with expectedNext := nextAfter p }, ⟨0, []⟩, if_neg h, hf⟩

/-! ### True sequence numbers -/

/-- A packet with its true number, of which the header has the last 32 bits. -/
structure TruePacket where
  pkt : Packet
  num : ℤ
  seq_eq : pkt.seq = BitVec.ofInt 32 num

/-- The true number after the packet. -/
def TruePacket.stop (q : TruePacket) : ℤ := q.num + if q.pkt.syn then 1 else q.pkt.psize.toNat

/-- The true expected position after a packet. -/
def advance (E : ℤ) (q : TruePacket) : ℤ := if q.num < E then E else q.stop

/-- Each packet is less than half a turn from the expected position. -/
def InWindow : ℤ → List TruePacket → Prop
  | _, [] => True
  | E, q :: tr => (E - 2 ^ 31 ≤ q.num ∧ q.num < E + 2 ^ 31) ∧ InWindow (advance E q) tr

/-- The maximum of a number and the ends of some packets. -/
def highest (first : ℤ) (qs : List TruePacket) : ℤ := qs.foldl (fun m q => max m q.stop) first

/-- A packet is counted if its number is below the highest end of the earlier uncounted ones. -/
def tallyStep (first : ℤ) (t : List TruePacket × ℕ) (q : TruePacket) : List TruePacket × ℕ :=
  if q.num < highest first t.1 then (t.1, t.2 + 1) else (t.1 ++ [q], t.2)

/-- The uncounted packets of a trace and the number of counted ones. -/
def tally (first : ℤ) (tr : List TruePacket) : List TruePacket × ℕ :=
  tr.foldl (tallyStep first) ([], 0)

theorem num_le_stop (q : TruePacket) : q.num ≤ q.stop := by
  unfold TruePacket.stop
  split_ifs <;> omega

theorem highest_concat (first : ℤ) (qs : List TruePacket) (q : TruePacket) :
    highest first (qs ++ [q]) = max (highest first qs) q.stop := by
  simp [highest]

theorem InWindow.mono : ∀ {pre tr : List TruePacket} {E : ℤ}, pre <+: tr → InWindow E tr →
    InWindow E pre
  | [], _, _, _, _ => trivial
  | q :: pre, tr, E, hp, hw => by
    obtain ⟨post, rfl⟩ := hp
    exact ⟨hw.1, hw.2.mono (List.prefix_append pre post)⟩

/-- In the window, 32 bits are enough to compare. -/
theorem before_true {q : TruePacket} {E : ℤ} (h : E - 2 ^ 31 ≤ q.num ∧ q.num < E + 2 ^ 31) :
    before q.pkt.seq (BitVec.ofInt 32 E) = true ↔ q.num < E := by
  rw [q.seq_eq, before_iff, sdist_ofInt (by norm_num; omega) (by norm_num; omega)]
  omega

theorem nextAfter_true (q : TruePacket) : nextAfter q.pkt = BitVec.ofInt 32 q.stop := by
  unfold nextAfter TruePacket.stop seqEnd
  rw [q.seq_eq]
  split_ifs
  · rw [BitVec.ofInt_add]; rfl
  · rw [BitVec.ofInt_add, BitVec.ofInt_natCast, BitVec.ofNat_toNat]

/-- **The simulation**: the 32-bit state follows the true position and the tally. -/
theorem run_true (first : ℤ) : ∀ {tr : List TruePacket} {E : ℤ} {t : List TruePacket × ℕ}
    {f : RcFlowbuf} (l : List RcFlowdata), InWindow E tr → highest first t.1 = E →
    f.expectedNext = BitVec.ofInt 32 E →
    ∃ f', run handler.flowStep ⟨some f, BitVec.ofNat 64 t.2, l⟩ (tr.map TruePacket.pkt) =
        some ⟨some f', BitVec.ofNat 64 (tr.foldl (tallyStep first) t).2, l⟩ ∧
      f'.expectedNext = BitVec.ofInt 32 (tr.foldl advance E)
  | [], E, t, f, l, _, _, hf => ⟨f, rfl, hf⟩
  | q :: tr, E, t, f, l, hw, ht, hf => by
    rw [List.map_cons, List.foldl_cons, List.foldl_cons]
    by_cases hlt : q.num < E
    · have hstep : handler.handle f q.pkt = some (f, ⟨1, []⟩) :=
        if_pos (by rw [hf]; exact (before_true hw.1).mpr hlt)
      have ht' : tallyStep first t q = (t.1, t.2 + 1) := if_pos (by rw [ht]; exact hlt)
      have hadv : advance E q = E := if_pos hlt
      obtain ⟨f', hr, hf'⟩ := run_true first (t := (t.1, t.2 + 1)) l (hadv ▸ hw.2) ht hf
      refine ⟨f', run_of_step (flowStep_buf handler hstep _ _) ?_, by rw [hadv]; exact hf'⟩
      rw [ht', ← hr, BitVec.ofNat_add, List.append_nil]
      rfl
    · have hstep : handler.handle f q.pkt =
          some ({ f with expectedNext := nextAfter q.pkt }, ⟨0, []⟩) :=
        if_neg (by rw [hf]; exact mt (before_true hw.1).mp hlt)
      have ht' : tallyStep first t q = (t.1 ++ [q], t.2) := if_neg (by rw [ht]; exact hlt)
      have hadv : advance E q = q.stop := if_neg hlt
      have hhigh : highest first (t.1 ++ [q]) = q.stop := by
        have := num_le_stop q
        rw [highest_concat, ht]
        omega
      obtain ⟨f', hr, hf'⟩ := run_true first (t := (t.1 ++ [q], t.2))
        (f := { f with expectedNext := nextAfter q.pkt }) l (hadv ▸ hw.2) hhigh (nextAfter_true q)
      refine ⟨f', run_of_step (flowStep_buf handler hstep _ _) ?_, by rw [hadv]; exact hf'⟩
      rw [ht', ← hr, List.append_nil]
      exact congrArg (fun c => run handler.flowStep ⟨_, c, l⟩ _) (add_zero _)

theorem tally_le (first : ℤ) : ∀ (tr : List TruePacket) (t : List TruePacket × ℕ),
    (tr.foldl (tallyStep first) t).2 ≤ t.2 + tr.length
  | [], t => le_rfl
  | q :: tr, t => by
    have h := tally_le first tr (tallyStep first t q)
    have hstep : (tallyStep first t q).2 ≤ t.2 + 1 := by
      unfold tallyStep
      split_ifs
      · exact le_rfl
      · exact Nat.le_succ _
    rw [List.foldl_cons, List.length_cons]
    omega

/-- **The 32-bit counter refines the unbounded one**: on a trace of one flow, whose true numbers
stay in the window of the expected position, after every prefix `expected_next` is the true position
modulo `2 ^ 32`, and the count is the number of packets below the maximum of the first number and
the ends of the earlier uncounted packets. -/
theorem refines_true_numbers {s d : U16} {first : TruePacket} {rest pre : List TruePacket}
    (hflow : ∀ q ∈ first :: rest, q.pkt.sport = s ∧ q.pkt.dport = d)
    (hwin : InWindow first.num (first :: rest)) (hpre : pre <+: first :: rest) (hne : pre ≠ []) :
    ∃ rc f, run rcHandlePacket Rc.init (pre.map TruePacket.pkt) = some rc ∧ rc.flow s d = some f ∧
      f.expectedNext = BitVec.ofInt 32 (pre.foldl advance first.num) ∧
      rc.reorderCount = BitVec.ofNat 64 (tally first.num pre).2 ∧
      (pre.length < 2 ^ 64 → rc.reorderCount.toNat = (tally first.num pre).2) := by
  obtain ⟨post, rfl⟩ : ∃ post, pre = first :: post := by
    rcases pre with _ | ⟨q, post⟩
    · exact absurd rfl hne
    · exact ⟨post, by rw [(List.cons_prefix_cons.mp hpre).1]⟩
  obtain ⟨f, hr, hf⟩ := run_true first.num (t := ([], 0)) (f := handler.fresh first.pkt) []
    (hwin.mono hpre) rfl first.seq_eq
  have hr' : run handler.flowStep ⟨none, 0, []⟩ ((first :: post).map TruePacket.pkt) = _ := hr
  obtain ⟨rc, hrun, -, hat, -, hcount, -⟩ := run_single handler wf_init (s := s) (d := d)
    (fun p hp => by
      obtain ⟨q, hq, rfl⟩ := List.mem_map.mp hp
      exact hflow q (hpre.subset hq)) (flow_init s d) hr'
  have hcount' : rc.reorderCount = BitVec.ofNat 64 (tally first.num (first :: post)).2 :=
    (add_zero _).symm.trans (hcount.trans (zero_add _))
  refine ⟨rc, f, hrun, hat, hf, hcount', fun hlen => ?_⟩
  have hle := tally_le first.num (first :: post) ([], 0)
  rw [hcount', BitVec.toNat_ofNat]
  exact Nat.mod_eq_of_lt (lt_of_le_of_lt hle (by simpa using hlen))

/-- Three packets across the end of the sequence space, the last one late. -/
def wrapTrace : List TruePacket :=
  [⟨⟨7, 9, 10, 4294967290, 16, 0⟩, 4294967290, by decide⟩,
    ⟨⟨7, 9, 10, 14, 16, 0⟩, 4294967310, by decide⟩,
    ⟨⟨7, 9, 10, 4, 16, 0⟩, 4294967300, by decide⟩]

theorem refines_true_numbers_wrap : ∃ rc f,
    run rcHandlePacket Rc.init (wrapTrace.map TruePacket.pkt) = some rc ∧ rc.flow 7 9 = some f ∧
    f.expectedNext = 24 ∧ rc.reorderCount.toNat = 1 := by
  obtain ⟨rc, f, hr, hat, hnext, -, hcount⟩ := refines_true_numbers (s := 7) (d := 9)
    (show ∀ q ∈ wrapTrace, _ by simp [wrapTrace]) (show InWindow _ wrapTrace by
      simp [wrapTrace, InWindow, advance, TruePacket.stop, Packet.syn, thSyn])
    (List.prefix_refl wrapTrace) (by simp [wrapTrace])
  exact ⟨rc, f, hr, hat, hnext, hcount (by simp [wrapTrace])⟩

/-! ### Port reuse -/

/-- The amount by which `rc.reorder_count` grows over the packets. -/
def growth (rc : Rc) (tr : List Packet) : Option U64 :=
  (run rcHandlePacket rc tr).map fun rc' => rc'.reorderCount - rc.reorderCount

/-- The growth over packets of one flow is what the flow counts. -/
theorem growth_eq {rc : Rc} (hall : rc.All Plain) {s d : U16} {tr : List Packet}
    (htr : ∀ p ∈ tr, p.sport = s ∧ p.dport = d) : growth rc tr =
      (run handler.flowStep ⟨rc.flow s d, 0, []⟩ tr).map FlowState.counted := by
  obtain ⟨st', hst, -⟩ := keeps_plain.run_flow tr ⟨rc.flow s d, 0, []⟩ (hall.2 s d)
  obtain ⟨rc', hr, -, -, -, hcount, -⟩ := run_single handler hall.1 htr rfl hst
  have hcount' : rc'.reorderCount = rc.reorderCount + st'.counted := (add_zero _).symm.trans hcount
  rw [growth, rcHandlePacket, hr, hst, Option.map_some, Option.map_some, hcount',
    add_sub_cancel_left]

theorem handle_fresh (p : Packet) :
    handler.handle (handler.fresh p) p = some (⟨0, nextAfter p, .nil⟩, ⟨0, []⟩) := by
  have hself : before p.seq (handler.fresh p).expectedNext = false := by
    rw [show (handler.fresh p).expectedNext = p.seq from rfl, not_before_iff, sdist_self]
  exact if_neg (by rw [hself]; simp)

/-- A packet that is not before `expected_next` starts the flow afresh. -/
theorem flowStep_afresh {f : RcFlowbuf} (hf : Plain f) {p : Packet}
    (hb : before p.seq f.expectedNext = false) :
    handler.flowStep ⟨some f, 0, []⟩ p = handler.flowStep ⟨none, 0, []⟩ p := by
  have hstep : handler.handle f p = some (⟨f.size, nextAfter p, f.root⟩, ⟨0, []⟩) :=
    if_neg (by rw [hb]; simp)
  rw [flowStep_buf handler hstep, hf.1, hf.2]
  exact (flowStep_buf handler (handle_fresh p) 0 []).symm

/-- **When port reuse does not leak**: after any history, the growth over a packet, such as the SYN
of a new connection, and every continuation of its flow without SYN is the growth from a fresh
counter if and only if the flow is new or the number of the packet is not before its
`expected_next`. -/
theorem reuse_iff {h : List Packet} {rc : Rc} {p : Packet}
    (hrc : run rcHandlePacket Rc.init h = some rc) :
    (∀ t : List Packet, (∀ q ∈ t, (q.sport = p.sport ∧ q.dport = p.dport) ∧ q.syn = false) →
      growth rc (p :: t) = growth Rc.init (p :: t)) ↔
    ∀ f, rc.flow p.sport p.dport = some f → before p.seq f.expectedNext = false := by
  have hall := keeps_plain.of_run hrc
  have hflow : ∀ {t : List Packet},
      (∀ q ∈ t, (q.sport = p.sport ∧ q.dport = p.dport) ∧ q.syn = false) →
      ∀ q ∈ p :: t, q.sport = p.sport ∧ q.dport = p.dport := fun ht q hq => by
    rcases List.mem_cons.mp hq with rfl | hq
    · exact ⟨rfl, rfl⟩
    · exact (ht q hq).1
  constructor
  · intro hall' f hf
    by_contra hb
    rw [Bool.not_eq_false] at hb
    have h1 := hall' [] (by simp)
    rw [growth_eq hall (hflow (t := []) (by simp)), growth_eq (all_init Plain)
      (hflow (t := []) (by simp)), hf, flow_init] at h1
    have hstep : handler.handle f p = some (f, ⟨1, []⟩) := if_pos hb
    have hnew : handler.flowStep ⟨none, 0, []⟩ p = some ⟨_, 0 + 0, [] ++ []⟩ :=
      flowStep_buf handler (handle_fresh p) 0 []
    rw [run_cons, run_cons, flowStep_buf handler hstep, hnew] at h1
    simp at h1
  · intro hb t ht
    rw [growth_eq hall (hflow ht), growth_eq (all_init Plain) (hflow ht), flow_init]
    rcases hf : rc.flow p.sport p.dport with _ | f
    · rfl
    · rw [run_cons, run_cons, flowStep_afresh (hall.2 _ _ f hf) (hb f hf)]

def oldSegment : Packet := ⟨7, 9, 100, 1000, 16, 0⟩
def synPacket (seq : U32) : Packet := ⟨7, 9, 0, seq, 2, 0⟩

theorem reuse_iff_higher : ∃ rc, run rcHandlePacket Rc.init [oldSegment] = some rc ∧
    ∀ t : List Packet, (∀ q ∈ t, (q.sport = 7 ∧ q.dport = 9) ∧ q.syn = false) →
      growth rc (synPacket 5000 :: t) = growth Rc.init (synPacket 5000 :: t) := by
  have hrc : run rcHandlePacket Rc.init [oldSegment] = some _ := rfl
  refine ⟨_, hrc, (reuse_iff (p := synPacket 5000) hrc).mpr fun f hf => ?_⟩
  cases (show some (⟨0, 1100, .nil⟩ : RcFlowbuf) = some f from hf)
  decide

/-- **A new connection is counted against the old one**: after a segment that ends at `1100`, a SYN
with the unused number `500` is counted, while a fresh counter does not count it. -/
theorem reuse_leaks : ∃ rc, run rcHandlePacket Rc.init [oldSegment] = some rc ∧
    (synPacket 500).syn = true ∧ oldSegment.seq ≠ (synPacket 500).seq ∧
    growth rc [synPacket 500] = some 1 ∧ growth Rc.init [synPacket 500] = some 0 :=
  ⟨_, rfl, by decide, by decide, by decide, by decide⟩

end DynBandwidth.Reorder.TcpCounter
