import DynBandwidth.Reorder.CounterWindow

/-! # Where `reorder_counter.c` moves `expected_next`

`rc_handle_packet` and `send_packet_at` assign `expected_next` the end of the segment they send,
whatever its value was. So `expected_next` does not move backwards if no segment ends before it. It
may move backwards for a moment while the loop sends several segments; what counts is where the loop
stops. In a windowed run it stops before a gap, and then `expected_next` moves backwards if and only
if the arriving or a held segment ends before it and has a gap behind it
(`not_before_iff_forward`). A retransmission of data already sent is such a segment
(`expectedNext_back`). -/

namespace DynBandwidth.Reorder.CounterForward

open DynBandwidth.Lib.Serial DynBandwidth.Lib.RbTree DynBandwidth.Lib.Runs
open DynBandwidth.Reorder.Header DynBandwidth.Reorder.SeqTree DynBandwidth.Reorder.Flows
open DynBandwidth.Reorder.Counter DynBandwidth.Reorder.CounterWindow

/-- The segment ends before the number. -/
def EndsBefore (x : RcFlowdata) (n : U32) : Prop := before (seqEnd x.seq x.segSize) n = true

/-- No segment that could be sent last ends before `expected_next`. A packet at or before
`expected_next` lets the held segments follow up to a gap; a packet behind it lets a full buffer
send its lowest segment, if that one is not above the packet as an unsigned number. -/
structure Forward (f : RcFlowbuf) (p : Packet) : Prop where
  arriving : sdist p.seq f.expectedNext ≤ 0 → EndsBefore ⟨p.seq, p.psize⟩ f.expectedNext →
    ∃ z ∈ f.held, ¬ EndsBefore ⟨p.seq, p.psize⟩ z.seq
  held : sdist p.seq f.expectedNext ≤ 0 → ∀ y ∈ f.held, EndsBefore y f.expectedNext →
    ∃ z ∈ f.held, before y.seq z.seq = true ∧ ¬ EndsBefore y z.seq
  full : 0 < sdist p.seq f.expectedNext → f.size = fbufSiz → ∀ y ∈ f.held, y.seq ≤ p.seq →
    EndsBefore y f.expectedNext → ∃ z ∈ f.held, before z.seq y.seq = true

/-! ### Where the loop stops -/

theorem endsBefore_iff {x : RcFlowdata} {n : U32} :
    EndsBefore x n ↔ sdist (seqEnd x.seq x.segSize) n < 0 := before_iff

/-- The end of a segment near a base. -/
theorem sdist_end {x : RcFlowdata} {b : U32} (h : Near x.seq b) :
    sdist (seqEnd x.seq x.segSize) b = sdist x.seq b + x.segSize.toNat := by
  have hend := sdist_seqEnd x.seq x.segSize
  have hadd := sdist_add (seqEnd x.seq x.segSize) x.seq b
  have hr := sdist_range (seqEnd x.seq x.segSize) b
  have hlt := x.segSize.isLt
  unfold Near at h
  omega

/-- The end of the data that the loop has sent, or of the packet, seen from a base: its distances to
what is still held do not wrap. -/
structure Reaches (b e : U32) (ds : List RcFlowdata) : Prop where
  low : -1073741824 ≤ sdist e b
  high : sdist e b ≤ 1073807359
  apart : ∀ x ∈ ds, -2147483648 < sdist x.seq b - sdist e b ∧
    sdist x.seq b - sdist e b < 2147483648

theorem Reaches.sdist_eq {b e : U32} {ds : List RcFlowdata} (h : Reaches b e ds) {x : RcFlowdata}
    (hx : x ∈ ds) : sdist x.seq e = sdist x.seq b - sdist e b :=
  sdist_of_base b (h.apart x hx).1.le (h.apart x hx).2

/-- After the first held segment the distances do not wrap either. -/
theorem Reaches.next {b : U32} {d : RcFlowdata} {ds : List RcFlowdata}
    (ha : Ascending RcFlowdata.seq (d :: ds)) (hn : ∀ x ∈ d :: ds, Near x.seq b) :
    Reaches b (seqEnd d.seq d.segSize) ds := by
  have hd := hn d (by simp)
  have hend := sdist_end hd
  have hlt := d.segSize.isLt
  unfold Near at hd
  refine ⟨by omega, by omega, fun x hx => ?_⟩
  have hxd := (List.pairwise_cons.mp ha).1 x hx
  have hxn := hn x (by simp [hx])
  have hadd := sdist_add x.seq d.seq b
  unfold Near at hxn
  omega

/-- **Where the loop stops**: it ends before a number `n` if and only if the data up to `e` or a
held segment ends before `n` and has a gap behind it. The induction is on the held segments; a
segment that is not sent lies behind a gap, so that if it ends before `n`, so does what was sent. -/
theorem lastEnd_before_iff {b n : U32} (h0 : 0 ≤ sdist n b) (h1 : sdist n b ≤ 1073741824) :
    ∀ {ds : List RcFlowdata} {e : U32}, Ascending RcFlowdata.seq ds →
      (∀ x ∈ ds, Near x.seq b) → Reaches b e ds →
      (before (lastEnd e (chain e ds).1) n = true ↔
        (before e n = true ∧ ∀ z ∈ ds, before e z.seq = true) ∨
        ∃ y ∈ ds, EndsBefore y n ∧ ∀ z ∈ ds, before y.seq z.seq = true → EndsBefore y z.seq)
  | [], e, _, _, _ => by simp [chain, lastEnd]
  | d :: ds, e, ha, hn, he => by
    obtain ⟨hd, hds⟩ := List.pairwise_cons.mp ha
    have hback : ∀ y ∈ ds, ¬ before y.seq d.seq = true := fun y hy hlt => by
      have := (hd y hy).1
      rw [before_iff] at hlt
      omega
    rw [chain]
    split_ifs with hde
    · -- the first segment is sent, and nothing is left to say about `e`
      have hno : ¬ (before e n = true ∧ ∀ z ∈ d :: ds, before e z.seq = true) := by
        rintro ⟨-, hall⟩
        have hlt := before_iff.mp (hall d (by simp))
        have hle := le_iff_sdist.mp hde
        have happ := (he.apart d (by simp)).1
        rw [← he.sdist_eq (by simp)] at happ
        rw [sdist_swap happ] at hlt
        omega
      rw [lastEnd, lastEnd_before_iff h0 h1 hds (fun x hx => hn x (by simp [hx]))
        (Reaches.next ha hn), or_iff_right hno]
      constructor
      · rintro (⟨hend, hall⟩ | ⟨y, hy, hend, hall⟩)
        · refine ⟨d, by simp, hend, fun z hz hlt => ?_⟩
          rcases List.mem_cons.mp hz with rfl | hz
          · rw [before_iff, sdist_self] at hlt
            omega
          · exact hall z hz
        · refine ⟨y, by simp [hy], hend, fun z hz hlt => ?_⟩
          rcases List.mem_cons.mp hz with rfl | hz
          · exact absurd hlt (hback y hy)
          · exact hall z hz hlt
      · rintro ⟨y, hy, hend, hall⟩
        rcases List.mem_cons.mp hy with rfl | hy
        · exact Or.inl ⟨hend, fun z hz => hall z (by simp [hz]) (before_of_pos (hd z hz).1)⟩
        · exact Or.inr ⟨y, hy, hend, fun z hz => hall z (by simp [hz])⟩
    · -- the loop stops at `e`
      have hgap := sdist_pos_of_not_le hde
      have hx := he.sdist_eq (x := d) (by simp)
      have hbehind : ∀ z ∈ d :: ds, sdist d.seq b ≤ sdist z.seq b := fun z hz => by
        rcases List.mem_cons.mp hz with rfl | hz
        · exact le_rfl
        · have hzd := hd z hz
          have hadd := sdist_add z.seq d.seq b
          have hnz := hn z (by simp [hz])
          have hnd := hn d (by simp)
          unfold Near at hnz hnd
          omega
      have hafter : ∀ z ∈ d :: ds, before e z.seq = true := fun z hz => by
        have := hbehind z hz
        exact before_of_pos (by rw [he.sdist_eq hz]; omega)
      show before e n = true ↔ _
      constructor
      · exact fun hen => Or.inl ⟨hen, hafter⟩
      · rintro (⟨hen, -⟩ | ⟨y, hy, hend, -⟩)
        · exact hen
        · have hy' := hn y hy
          have hle := hbehind y hy
          have hyend := sdist_end hy'
          have hlt := y.segSize.isLt
          unfold Near at hy'
          rw [endsBefore_iff, sdist_of_base b (by omega) (by omega)] at hend
          have := he.low
          rw [before_iff, sdist_of_base b (by omega) (by omega)]
          omega

/-! ### One packet -/

/-- **In every state**, `expected_next` does not move backwards if no segment ends before it. -/
theorem not_before_of_ends {f f' : RcFlowbuf} {p : Packet} {e : Effect} (hp : p.syn = false)
    (h : lowestFirst f p = some (f', e)) (harr : ¬ EndsBefore ⟨p.seq, p.psize⟩ f.expectedNext)
    (hheld : ∀ x ∈ f.held, ¬ EndsBefore x f.expectedNext) :
    before f'.expectedNext f.expectedNext = false := by
  have hrefl : before f.expectedNext f.expectedNext = false := by rw [not_before_iff, sdist_self]
  rcases lowestFirst_cases h with ⟨-, -, -, hexp, -⟩ | ⟨-, -, rfl, -⟩ |
    ⟨-, -, lowest, rest, hl, -, rfl, -⟩ | ⟨-, -, -, rfl, -⟩
  · rw [nextAfter_eq hp] at hexp
    rw [hexp]
    have happ := chain_append (seqEnd p.seq p.psize) f.held
    rcases List.eq_nil_or_concat (chain (seqEnd p.seq p.psize) f.held).1 with hnil | ⟨l, z, hz⟩
    · rw [hnil]
      exact Bool.eq_false_iff.mpr harr
    · rw [hz, List.concat_eq_append] at happ ⊢
      rw [lastEnd_concat]
      exact Bool.eq_false_iff.mpr (hheld z (by rw [← happ]; simp))
  · rw [insertOrSendPacket_expectedNext]
    exact hrefl
  · rw [insertOrSendPacket_expectedNext]
    exact Bool.eq_false_iff.mpr (hheld lowest (by rw [hl]; simp))
  · exact hrefl

/-- The in-order branch: a held segment may be the last one sent, or the packet itself. -/
theorem inOrder_iff {f : RcFlowbuf} {p : Packet} (ha : Ascending RcFlowdata.seq f.held)
    (hw : Near p.seq f.expectedNext ∧ ∀ x ∈ f.held, Near p.seq x.seq)
    (hle : sdist p.seq f.expectedNext ≤ 0) :
    before (lastEnd (seqEnd p.seq p.psize) (chain (seqEnd p.seq p.psize) f.held).1) f.expectedNext =
        false ↔ Forward f p := by
  have hnext := sdist_swap (a := p.seq) (b := f.expectedNext) (by have := hw.1.1; omega)
  have hend := sdist_seqEnd p.seq p.psize
  have hsize := p.psize.isLt
  have hreach : Reaches p.seq (seqEnd p.seq p.psize) f.held := by
    refine ⟨by omega, by omega, fun x hx => ?_⟩
    have hx := (hw.2 x hx).symm
    unfold Near at hx
    omega
  have hback := lastEnd_before_iff (n := f.expectedNext) (b := p.seq) (by omega)
    (by have := hw.1.1; omega) ha (fun x hx => (hw.2 x hx).symm) hreach
  rw [← Bool.not_eq_true, hback]
  constructor
  · intro hno
    refine ⟨fun _ hend => ?_, fun _ y hy hend => ?_, fun hgt => by omega⟩
    · by_contra hall
      push Not at hall
      exact hno (Or.inl ⟨hend, fun z hz => hall z hz⟩)
    · by_contra hall
      push Not at hall
      exact hno (Or.inr ⟨y, hy, hend, hall⟩)
  · rintro hf (⟨hend, hall⟩ | ⟨y, hy, hend, hall⟩)
    · obtain ⟨z, hz, hnot⟩ := hf.arriving hle hend
      exact hnot (hall z hz)
    · obtain ⟨z, hz, hlt, hnot⟩ := hf.held hle y hy hend
      exact hnot (hall z hz hlt)

/-- **In a windowed state**, `expected_next` does not move backwards if and only if the packet is
`Forward`. -/
theorem forward_iff {f f' : RcFlowbuf} {p : Packet} {e : Effect} (hs : Sized f)
    (ha : Ascending RcFlowdata.seq f.held)
    (hw : Near p.seq f.expectedNext ∧ ∀ x ∈ f.held, Near p.seq x.seq) (hp : p.syn = false)
    (h : lowestFirst f p = some (f', e)) :
    before f'.expectedNext f.expectedNext = false ↔ Forward f p := by
  have hrefl : before f.expectedNext f.expectedNext = false := by rw [not_before_iff, sdist_self]
  -- every held segment but the first one has a lower one
  have hlower : ∀ {lowest rest}, f.held = lowest :: rest → ∀ y ∈ f.held, y ≠ lowest →
      ∃ z ∈ f.held, before z.seq y.seq = true := by
    intro lowest rest hheld y hy hne
    rw [hheld] at ha hy
    exact ⟨lowest, by rw [hheld]; simp, before_of_pos
      ((List.pairwise_cons.mp ha).1 y ((List.mem_cons.mp hy).resolve_left hne)).1⟩
  rcases lowestFirst_cases h with ⟨hle, -, -, hexp, -⟩ | ⟨hgt, hlt, rfl, -⟩ |
    ⟨hgt, hnlt, lowest, rest, hheld, hlow, rfl, -⟩ | ⟨hgt, -, ⟨lowest, rest, hheld, hlow⟩, rfl, -⟩
  · rw [hexp, nextAfter_eq hp]
    exact inOrder_iff ha hw hle
  · rw [insertOrSendPacket_expectedNext]
    exact iff_of_true hrefl ⟨fun hle => by omega, fun hle => by omega,
      fun _ hsz => absurd hlt (hs.eq_iff.mp hsz)⟩
  · rw [insertOrSendPacket_expectedNext]
    constructor
    · intro hb
      refine ⟨fun hle => by omega, fun hle => by omega, fun _ _ y hy _ hend => ?_⟩
      refine hlower hheld y hy fun heq => Bool.eq_false_iff.mp hb ?_
      rw [heq] at hend
      exact hend
    · intro hf
      refine Bool.eq_false_iff.mpr fun hend => ?_
      obtain ⟨z, hz, hlt⟩ :=
        hf.full hgt (hs.eq_iff.mpr hnlt) lowest (by rw [hheld]; simp) hlow hend
      rw [hheld] at ha hz
      rw [before_iff] at hlt
      rcases List.mem_cons.mp hz with rfl | hz
      · rw [sdist_self] at hlt
        omega
      · have := ((List.pairwise_cons.mp ha).1 z hz).1
        omega
  · refine iff_of_true hrefl ⟨fun hle => by omega, fun hle => by omega, fun _ _ y hy hyp _ => ?_⟩
    refine hlower hheld y hy fun heq => hlow ?_
    rw [← heq]
    exact hyp

/-- **When `expected_next` does not move backwards**: in every state that can be reached, handling a
packet without SYN of a known flow leaves `expected_next` where it is or moves it forward if neither
the packet nor a held segment ends before it. In a windowed run it does so if and only if the packet
is `Forward`: no segment that ends before `expected_next` has a gap behind it, or is the lowest one
of a full buffer that stores the packet. -/
theorem not_before_iff_forward {tr : List Packet} {rc : Rc} {f : RcFlowbuf} {p : Packet}
    (hrc : run rcHandlePacket Rc.init tr = some rc) (hf : rc.flow p.sport p.dport = some f)
    (hp : p.syn = false) :
    ∃ rc' f', rcHandlePacket rc p = some rc' ∧ rc'.flow p.sport p.dport = some f' ∧
      (¬ EndsBefore ⟨p.seq, p.psize⟩ f.expectedNext →
        (∀ x ∈ f.held, ¬ EndsBefore x f.expectedNext) →
        before f'.expectedNext f.expectedNext = false) ∧
      (AllSteps rcHandlePacket Windowed Rc.init tr → Windowed rc p →
        (before f'.expectedNext f.expectedNext = false ↔ Forward f p)) := by
  have hall := keeps_sized.of_run hrc
  obtain ⟨f', e, hstep, -⟩ := keeps_sized.step f p (hall.2 _ _ f hf)
  obtain ⟨rc', hr, -, hat, -⟩ := rcHandlePacket_spec handler hall.1 (p := p) (f := f') (e := e)
    (by rw [hf]; exact hstep)
  refine ⟨rc', f', hr, hat, not_before_of_ends hp hstep, fun hw hwp => ?_⟩
  obtain ⟨hsized, hasc⟩ := (ascending_of_windowed hw hrc).2 _ _ f hf
  exact forward_iff hsized hasc (hwp f hf) hp hstep

/-- A segment, a retransmission of its first half, a segment behind a gap, and the one that fills
the gap. -/
def firstSegment : Packet := ⟨7, 9, 100, 1000, 16, 0⟩
def halfSegment : Packet := ⟨7, 9, 50, 1000, 16, 0⟩
def heldSegment : Packet := ⟨7, 9, 100, 1200, 16, 0⟩
def nextSegment : Packet := ⟨7, 9, 100, 1100, 16, 0⟩

/-- **A retransmission moves `expected_next` back**: after a segment that ends at `1100`, its first
half again leaves `expected_next` at `1050`. -/
theorem expectedNext_back : ∃ rc rc' f f', run rcHandlePacket Rc.init [firstSegment] = some rc ∧
    rcHandlePacket rc halfSegment = some rc' ∧ halfSegment.syn = false ∧
    rc.flow 7 9 = some f ∧ rc'.flow 7 9 = some f' ∧
    f.expectedNext = 1100 ∧ f'.expectedNext = 1050 ∧
    before f'.expectedNext f.expectedNext = true := by
  refine ⟨_, _, _, _, rfl, rfl, by decide, rfl, rfl, by decide, by decide, by decide⟩

theorem not_before_iff_forward_next : ∃ rc rc' f f',
    run rcHandlePacket Rc.init [firstSegment, heldSegment] = some rc ∧
    rcHandlePacket rc nextSegment = some rc' ∧
    rc.flow 7 9 = some f ∧ rc'.flow 7 9 = some f' ∧ f.held = [⟨1200, 100⟩] ∧
    before f'.expectedNext f.expectedNext = false ∧ Forward f nextSegment := by
  have hw : AllSteps rcHandlePacket Windowed Rc.init [firstSegment, heldSegment, nextSegment] :=
    windowed_of_low (by decide)
  obtain ⟨rc', f', hr, hat, hsuff, hiff⟩ := not_before_iff_forward (p := nextSegment)
    (show run rcHandlePacket Rc.init [firstSegment, heldSegment] = some _ from rfl) rfl (by decide)
  have hb := hsuff (by unfold EndsBefore; decide) (by unfold EndsBefore; decide)
  refine ⟨_, rc', _, f', rfl, hr, rfl, hat, by decide, hb, (hiff ?_ ?_).mp hb⟩
  · exact windowed_of_low (by decide)
  · exact hw.last (l := [firstSegment, heldSegment]) rfl

end DynBandwidth.Reorder.CounterForward
