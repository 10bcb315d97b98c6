import DynBandwidth.Netfilter.Queue

/-! # Windowed runs of the resequencing stage

A held packet is due when it would be sent if it arrived now: its number is `expected_next` or
before it (`due`). The loop of the stage sends a held packet only if its number is `expected_next`
exactly, so a packet that overlaps a held one jumps over it, and so does the lowest packet of a full
buffer.

In a run whose packets are near everything their flow knows (`Windowed`), no flow ever holds a
packet that is due if and only if no packet jumps over a held one (`noneDue_iff`): it meets them end
to end, or leaves a gap. A segment that covers a held one is the opposite case (`not_noneDue`). -/

namespace DynBandwidth.Netfilter.Window

open DynBandwidth.Lib.Serial DynBandwidth.Lib.RbTree DynBandwidth.Lib.Runs
open DynBandwidth.Reorder.Header DynBandwidth.Reorder.SeqTree
open DynBandwidth.Netfilter.Stage DynBandwidth.Netfilter.Queue

/-- The number is before `expected_next` or equal to it. -/
def due (expectedNext seq : U32) : Bool := before seq expectedNext || seq == expectedNext

/-- The number of the packet is near `expected_next` of its flow and all numbers held there. -/
def Windowed (nfq : Nfq) : Event → Prop
  | .packet a => ∀ f, nfq.flow a.pkt.sport a.pkt.dport = some f →
      Near a.pkt.seq f.expectedNext ∧ ∀ x ∈ f.held, Near a.pkt.seq x.seq
  | .timer _ _ => True

/-- No flow holds a packet that is due. -/
def NoneDue (nfq : Nfq) : Prop := ∀ s d f, nfq.flow s d = some f →
  ∀ x ∈ f.held, due f.expectedNext x.seq = false

/-- The packets meet end to end from `e` on, up to a gap: the first one starts after a gap, or at
`e` and the others meet end to end from its end on. A packet whose end is not above `e` as an
unsigned number does not move `expected_next`, and there is nothing to ask of the others. -/
def EndToEnd : U32 → List NfqFlowdata → Prop
  | _, [] => True
  | e, d :: ds => due e d.seq = false ∨
      d.seq = e ∧ (e < seqEnd d.seq d.segSize → EndToEnd (seqEnd d.seq d.segSize) ds)

/-- The packet jumps over no held one. If it is sent on arrival, the held packets meet end to end
from its end on. If a full buffer sends its lowest packet for it, it and the others start strictly
after the end of that one. Only packets that move `expected_next` matter. -/
structure NoJump (f : NfqFlowbuf) (p : Packet) : Prop where
  onArrival : due f.expectedNext p.seq = true →
    p.syn = true ∨ f.expectedNext < seqEnd p.seq p.psize → EndToEnd (nextAfter p) f.held
  whenFull : ∀ lowest rest, due f.expectedNext p.seq = false → f.size = fbufSiz →
    f.held = lowest :: rest → lowest.seq ≤ p.seq →
    f.expectedNext < seqEnd lowest.seq lowest.segSize →
    due (seqEnd lowest.seq lowest.segSize) p.seq = false ∧
      ∀ x ∈ rest, due (seqEnd lowest.seq lowest.segSize) x.seq = false

/-- No packet of the run jumps over a held one. -/
def NeverJumps (nfq : Nfq) : Event → Prop
  | .packet a => ∀ f, nfq.flow a.pkt.sport a.pkt.dport = some f → NoJump f a.pkt
  | .timer _ _ => True

/-! ### One packet on one flow -/

theorem not_due_iff {e seq : U32} : due e seq = false ↔ 0 < sdist seq e := by
  rw [due, ← Bool.not_eq_true, le_iff_sdist, not_le]

theorem due_iff {e seq : U32} : due e seq = true ↔ sdist seq e ≤ 0 := le_iff_sdist

theorem due_self (e : U32) : due e e = true := due_iff.mpr (sdist_self e).le

/-- What windowed runs keep of a flow. -/
structure Kept (f : NfqFlowbuf) : Prop where
  sized : Sized f
  ascending : Ascending NfqFlowdata.seq f.held
  noneDue : ∀ x ∈ f.held, due f.expectedNext x.seq = false

/-- The loop does nothing if no packet is due. -/
theorem chain_of_noneDue {e : U32} : ∀ {ds : List NfqFlowdata},
    (∀ x ∈ ds, due e x.seq = false) → chain e ds = ([], ds)
  | [], _ => rfl
  | d :: ds, h => by
    have hd := h d (by simp)
    rw [chain, if_neg]
    rw [beq_iff_eq]
    intro hde
    rw [hde, due_self] at hd
    cases hd

/-- **The loop leaves no packet that is due, if and only if the packets meet end to end.** The base
is the number of the last packet sent, which all that stay are near to. -/
theorem endToEnd_iff : ∀ {ds : List NfqFlowdata} {e b : U32}, Ascending NfqFlowdata.seq ds →
    0 ≤ sdist e b → sdist e b ≤ 65535 → (∀ x ∈ ds, Near x.seq b) →
    (EndToEnd e ds ↔ ∀ x ∈ (chain e ds).2, due (reach e (chain e ds).1) x.seq = false)
  | [], e, b, _, _, _, _ => by simp [EndToEnd, chain]
  | d :: ds, e, b, ha, h0, h1, hn => by
    obtain ⟨hd, hds⟩ := List.pairwise_cons.mp ha
    rw [chain, EndToEnd]
    split_ifs with hde
    · rw [beq_iff_eq] at hde
      rw [or_iff_right (by rw [hde, due_self]; simp), and_iff_right hde, reach, raise]
      by_cases hup : e < seqEnd d.seq d.segSize
      · have hend := sdist_seqEnd d.seq d.segSize
        have hlt := d.segSize.isLt
        have hnear : ∀ x ∈ ds, Near x.seq d.seq := fun x hx => by
          have := hd x hx
          unfold Near
          omega
        have hrec := endToEnd_iff (e := seqEnd d.seq d.segSize) hds (by omega) (by omega) hnear
        rw [if_pos hup, ← hrec]
        exact ⟨fun h => h hup, fun h _ => h⟩
      · -- `expected_next` stays, and the others are after the packet that was sent
        have hno : ∀ x ∈ ds, due e x.seq = false := fun x hx => by
          rw [← hde]
          exact not_due_iff.mpr (hd x hx).1
        rw [if_neg hup, chain_of_noneDue hno, reach]
        exact iff_of_true (fun h => absurd h hup) hno
    · rw [beq_iff_eq] at hde
      rw [or_iff_left (fun h => hde h.1), reach]
      constructor
      · intro hdue x hx
        rcases List.mem_cons.mp hx with rfl | hxs
        · exact hdue
        · rw [not_due_iff] at hdue ⊢
          exact sdist_pos_trans h0 h1 (hn d (by simp)) (hn x hx) (hd x hxs).1 hdue
      · intro h
        exact h d (by simp)

/-- A packet that is sent on arrival moves `expected_next` to its end, or leaves it alone. -/
theorem nextOnArrival_eq (e : U32) (p : Packet) : nextOnArrival e p =
    if p.syn = true ∨ e < seqEnd p.seq p.psize then nextAfter p else e := by
  unfold nextOnArrival nextAfter raise
  by_cases hsyn : p.syn = true
  · simp [hsyn]
  · simp [hsyn]

/-- The in-order branch. -/
theorem onArrival_iff {f : NfqFlowbuf} {p : Packet} (hk : Kept f)
    (hn : ∀ x ∈ f.held, Near p.seq x.seq) {sent rest : List NfqFlowdata}
    (hchain : chain (nextOnArrival f.expectedNext p) f.held = (sent, rest)) :
    (∀ x ∈ rest, due (reach (nextOnArrival f.expectedNext p) sent) x.seq = false) ↔
      (p.syn = true ∨ f.expectedNext < seqEnd p.seq p.psize → EndToEnd (nextAfter p) f.held) := by
  rw [nextOnArrival_eq] at hchain ⊢
  by_cases hmove : p.syn = true ∨ f.expectedNext < seqEnd p.seq p.psize
  · obtain ⟨h0, h1⟩ := sdist_nextAfter p
    have hiff := endToEnd_iff hk.ascending h0 h1 fun x hx => (hn x hx).symm
    rw [if_pos hmove] at hchain ⊢
    rw [hchain] at hiff
    rw [← hiff]
    exact ⟨fun h _ => h, fun h => h hmove⟩
  · rw [if_neg hmove, chain_of_noneDue hk.noneDue, Prod.mk.injEq] at hchain
    obtain ⟨rfl, rfl⟩ := hchain
    rw [if_neg hmove]
    exact iff_of_true hk.noneDue fun h => absurd h hmove

/-- **A packet within the window of its flow** keeps the tree ascending. -/
theorem ascending_of_near {now : ℚ} {queue : QHandle} {f f' : NfqFlowbuf} {id : U32} {p : Packet}
    {calls : List Call} (ha : Ascending NfqFlowdata.seq f.held)
    (hn : ∀ x ∈ f.held, Near p.seq x.seq) (h : resequence now queue f id p = some (f', calls)) :
    Ascending NfqFlowdata.seq f'.held :=
  ascending_resequence ha (fun _ hg x hx => hn x (mem_of_insertion hg hx)) h

/-- **Such a packet leaves none that is due**, if and only if it jumps over none. -/
theorem step_kept {f : NfqFlowbuf} {p : Packet} (hk : Kept f)
    (hn : ∀ x ∈ f.held, Near p.seq x.seq) (now : ℚ) (queue : QHandle) (id : U32) :
    ∃ f' calls, resequence now queue f id p = some (f', calls) ∧ Sized f' ∧
      Ascending NfqFlowdata.seq f'.held ∧
      ((∀ x ∈ f'.held, due f'.expectedNext x.seq = false) ↔ NoJump f p) := by
  obtain ⟨f', calls, hr, hsized⟩ := hk.sized.resequence now queue id p
  refine ⟨f', calls, hr, hsized, ascending_of_near hk.ascending hn hr, ?_⟩
  rcases resequence_cases hr with ⟨hle, sent, rest, hchain, -, hheld, hnext, -⟩ |
    ⟨hgt, hlt, rfl, -⟩ | ⟨hgt, hnlt, d, ds, hheld, hlow, rfl, -⟩ |
    ⟨hgt, hnlt, ⟨d, ds, hheld, hlow⟩, rfl, -⟩
  · have hdue := due_iff.mpr hle
    rw [hheld, hnext, onArrival_iff hk hn hchain]
    exact ⟨fun h => ⟨fun _ => h, fun _ _ hno => by simp [hdue] at hno⟩, fun h => h.onArrival hdue⟩
  · have hdue := not_due_iff.mpr hgt
    rw [insertOrSendPacket_expectedNext,
      forall_insertOrSendPacket now queue f p.seq id p.psize (due f.expectedNext · = false)]
    exact iff_of_true ⟨hdue, hk.noneDue⟩ ⟨fun h => by simp [hdue] at h,
      fun _ _ _ hsz => absurd hlt (hk.sized.eq_iff.mp hsz)⟩
  · have hdue := not_due_iff.mpr hgt
    have hrest : (sendPacketAt now queue f d).1.held = ds := by
      rw [sendPacketAt_held, hheld, List.tail_cons]
    rw [insertOrSendPacket_expectedNext, forall_insertOrSendPacket now queue
      (sendPacketAt now queue f d).1 p.seq id p.psize
      (due (sendPacketAt now queue f d).1.expectedNext · = false), hrest]
    have hrest' : ∀ x ∈ ds, due f.expectedNext x.seq = false := fun x hx =>
      hk.noneDue x (by rw [hheld]; simp [hx])
    constructor
    · refine fun h => ⟨fun hno => by simp [hdue] at hno, fun lowest rest _ _ hheld' _ hup => ?_⟩
      rw [hheld, List.cons.injEq] at hheld'
      obtain ⟨rfl, rfl⟩ := hheld'
      rw [sendPacketAt, raise, if_pos hup] at h
      exact h
    · intro h
      rw [sendPacketAt, raise]
      split_ifs with hup
      · exact h.whenFull d ds hdue (hk.sized.eq_iff.mpr hnlt) hheld hlow hup
      · exact ⟨hdue, hrest'⟩
  · have hdue := not_due_iff.mpr hgt
    refine iff_of_true hk.noneDue ⟨fun h => by simp [hdue] at h,
      fun lowest rest _ _ hheld' hlow' => ?_⟩
    rw [hheld, List.cons.injEq] at hheld'
    rw [← hheld'.1] at hlow'
    exact absurd hlow' hlow

/-! ### Runs -/

theorem kept_start (now : ℚ) (seq : U32) : Kept (startFlowbuf now seq) :=
  ⟨keeps_sized.start now seq, List.Pairwise.nil, List.forall_mem_nil _⟩

/-- The buffer of a packet in a windowed run. -/
theorem near_of_windowed {nfq : Nfq} {a : Arrival} (hw : Windowed nfq (.packet a)) :
    ∀ x ∈ ((nfq.flow a.pkt.sport a.pkt.dport).getD (startFlowbuf a.now a.pkt.seq)).held,
      Near a.pkt.seq x.seq := by
  rcases ho : nfq.flow a.pkt.sport a.pkt.dport with _ | f
  · exact List.forall_mem_nil _
  · exact (hw f ho).2

/-- One packet of a windowed run. -/
theorem stage_iff {nfq : Nfq} {a : Arrival} (hall : nfq.All Kept) (hw : Windowed nfq (.packet a)) :
    ∃ nfq', stage a nfq = some nfq' ∧ (NoneDue nfq' ↔ NeverJumps nfq (.packet a)) ∧
      (NoneDue nfq' → nfq'.All Kept) := by
  obtain ⟨f', calls, hr, hsized, hasc, hiff⟩ := step_kept
    (hall.getD (kept_start a.now a.pkt.seq) _ _) (near_of_windowed hw) a.now a.queue a.id
  obtain ⟨nfq', e, hwf, hat, hother, -⟩ := stage_spec hall.1 hr
  have hdue : NoneDue nfq' ↔ ∀ x ∈ f'.held, due f'.expectedNext x.seq = false := by
    refine ⟨fun h => h _ _ f' hat, fun h s d g hg => ?_⟩
    by_cases hk : s = a.pkt.sport ∧ d = a.pkt.dport
    · rw [hk.1, hk.2, hat] at hg
      cases hg
      exact h
    · rw [hother s d hk] at hg
      exact (hall.2 s d g hg).noneDue
  refine ⟨nfq', e, ?_, fun h => ?_⟩
  · rw [hdue, hiff, NeverJumps]
    rcases ho : nfq.flow a.pkt.sport a.pkt.dport with _ | f
    · refine iff_of_true ⟨fun _ _ => trivial, fun lowest rest _ _ hnil => ?_⟩
        fun f hf => by simp at hf
      simp [NfqFlowbuf.held, startFlowbuf, newFlowbuf] at hnil
    · simp only [Option.getD_some, Option.some.injEq, forall_eq']
  · exact hall.set hwf hat ⟨hsized, hasc, hdue.mp h⟩ hother

/-- One event of a windowed run. -/
theorem step_iff {nfq : Nfq} {ev : Event} (hall : nfq.All Kept) (hw : Windowed nfq ev) :
    ∃ nfq', step nfq ev = some nfq' ∧ (NoneDue nfq' ↔ NeverJumps nfq ev) ∧
      (NoneDue nfq' → nfq'.All Kept) := by
  rcases ev with a | ⟨now, fbuf⟩
  · exact stage_iff hall hw
  · have htimer : ∀ f t, Kept f → Kept { f with timer := some t } :=
      fun f t hf => ⟨hf.sized, hf.ascending, hf.noneDue⟩
    obtain ⟨nfq', e, hall'⟩ := hall.fire htimer now fbuf
    have hdue : NoneDue nfq' := fun s d f hf => (hall'.2 s d f hf).noneDue
    exact ⟨nfq', e, iff_of_true hdue trivial, fun _ => hall'⟩

/-- **No flow ever holds a packet that is due, if and only if no packet jumps over a held one**:
along a windowed run, every held packet is strictly after `expected_next` after every event if and
only if the held packets meet every packet sent on arrival end to end, or after a gap, and every
lowest packet sent from a full buffer is followed by a gap. -/
theorem noneDue_iff {evs : List Event} (hw : AllSteps step Windowed Nfq.init evs) :
    AllStates step NoneDue Nfq.init evs ↔ AllSteps step NeverJumps Nfq.init evs :=
  allStates_iff (fun _ _ hall hwin => step_iff hall hwin) (all_init Kept) hw

/-! ### A segment that covers a held one -/

def segment (id seq : U32) (psize : U16) : Arrival := ⟨0, none, id, ⟨7, 9, psize, seq, 16, 0⟩⟩

/-- The last segment fills the gap before the held one and covers it. -/
def coverTrace : List Arrival := [segment 0 1000 10, segment 1 1050 10, segment 2 1010 100]

theorem coverTrace_windowed :
    AllSteps step Windowed Nfq.init (coverTrace.map Event.packet) := by
  refine allSteps_single (s := 7) (d := 9) (Q := fun st a => ∀ f ∈ st.buf,
    Near a.pkt.seq f.expectedNext ∧ ∀ x ∈ f.held, Near a.pkt.seq x.seq)
    (fun nfq st a hflow hQ f hf => hQ f (hflow ▸ hf)) ⟨none, []⟩ (all_init Sized) (by decide)
    (flow_init 7 9) ?_
  refine ⟨by decide, ?_⟩
  rintro _ ⟨⟩
  refine ⟨by decide, ?_⟩
  rintro _ ⟨⟩
  refine ⟨by decide, fun _ _ => trivial⟩

theorem noneDue_iff_cover : AllSteps step Windowed Nfq.init (coverTrace.map Event.packet) ∧
    (AllStates step NoneDue Nfq.init (coverTrace.map Event.packet) ↔
      AllSteps step NeverJumps Nfq.init (coverTrace.map Event.packet)) :=
  ⟨coverTrace_windowed, noneDue_iff coverTrace_windowed⟩

/-- **A covered packet stays**: the run of `coverTrace` is windowed, and ends with a held packet
that is due: its number is `1050`, and `expected_next` is `1110`. -/
theorem not_noneDue : AllSteps step Windowed Nfq.init (coverTrace.map Event.packet) ∧
    ¬ AllStates step NoneDue Nfq.init (coverTrace.map Event.packet) := by
  refine ⟨coverTrace_windowed, fun h => ?_⟩
  have hrun : ∃ st f, run flowStep ⟨none, []⟩ coverTrace = some st ∧ st.buf = some f ∧
      f.held = [⟨1050, 1, 10⟩] ∧ f.expectedNext = 1110 := ⟨_, _, rfl, rfl, by decide, by decide⟩
  obtain ⟨st, f, hr, hbuf, hheld, hnext⟩ := hrun
  obtain ⟨nfq, hr', -, hflow, -⟩ := run_single (s := 7) (d := 9) wf_init (by decide)
    (flow_init 7 9) hr
  have hdue := h.last hr' (by decide) 7 9 f (hflow.trans hbuf) ⟨1050, 1, 10⟩ (by simp [hheld])
  rw [hnext] at hdue
  exact absurd hdue (by decide)

end DynBandwidth.Netfilter.Window
