import DynBandwidth.Netfilter.Window

/-! # What the stage drops

A packet is dropped when it is to be stored and the search meets a held packet with its number: the
smaller of the two is dropped, or the older one (`insertOrSendPacket_drops`). This makes the dropped
packet redundant if and only if both carry payload. In a windowed run the search meets every packet
that is still held then, so that nothing but redundant payload is dropped if and only if packets are
stored beside one of their number only if both carry payload (`drops_redundant_iff`). The sizes are
all the code looks at, so of two packets without payload, such as two pure ACKs, the first one is
dropped (`ack_dropped`). -/

namespace DynBandwidth.Netfilter.Drops

open DynBandwidth.Lib.Serial DynBandwidth.Lib.Runs
open DynBandwidth.Reorder.Header DynBandwidth.Reorder.SeqTree
open DynBandwidth.Netfilter.Stage DynBandwidth.Netfilter.Queue
open DynBandwidth.Netfilter.Window

/-- The packet of an arrival, as it is stored. -/
def arriving (a : Arrival) : NfqFlowdata := ⟨a.pkt.seq, a.id, a.pkt.psize⟩

/-- The packet `gone` carries payload, and a different packet of its number, not smaller, is held
afterwards: one of them is the arriving packet, the other one was held. -/
structure Redundant (f f' : NfqFlowbuf) (a : Arrival) (gone : NfqFlowdata) : Prop where
  payload : 0 < gone.segSize
  covered : ∃ other ∈ f'.held, other.seq = gone.seq ∧ gone.segSize ≤ other.segSize ∧
    ((gone = arriving a ∧ other ∈ f.held) ∨ (gone ∈ f.held ∧ other = arriving a))

/-- Every packet that the event drops is redundant. -/
def DropsRedundant (nfq : Nfq) (ev : Event) (nfq' : Nfq) : Prop :=
  ∃ calls, nfq'.calls = nfq.calls ++ calls ∧ ∀ c ∈ calls, c.verdict = .drop →
    ∃ a f f' gone, ev = .packet a ∧ nfq.flow a.pkt.sport a.pkt.dport = some f ∧
      nfq'.flow a.pkt.sport a.pkt.dport = some f' ∧ c.id = gone.packetId ∧ Redundant f f' a gone

/-- A packet that is stored and a packet of its number that is still held then both carry payload.
It is stored if it is behind `expected_next` and there is room, or if a full buffer sends its lowest
packet for it, which is then held no more. -/
structure PayloadOnly (f : NfqFlowbuf) (p : Packet) : Prop where
  room : before f.expectedNext p.seq = true → f.size < fbufSiz →
    ∀ x ∈ f.held, x.seq = p.seq → 0 < x.segSize ∧ 0 < p.psize
  full : before f.expectedNext p.seq = true → f.size = fbufSiz → ∀ lowest rest,
    f.held = lowest :: rest → lowest.seq ≤ p.seq →
    ∀ x ∈ rest, x.seq = p.seq → 0 < x.segSize ∧ 0 < p.psize

/-- Packets collide with held ones of their flow only if both carry payload. -/
def PayloadCollisions (nfq : Nfq) : Event → Prop
  | .packet a => ∀ f, nfq.flow a.pkt.sport a.pkt.dport = some f → PayloadOnly f a.pkt
  | .timer _ _ => True

/-! ### One event -/

/-- **What an insertion drops**: the new packet if the held one is larger, else the held one, whose
place the new one takes. -/
theorem insertOrSendPacket_drops {now : ℚ} {queue : QHandle} {g : NfqFlowbuf} {a : Arrival}
    {c : Call}
    (hc : c ∈ (insertOrSendPacket now queue g a.pkt.seq a.id a.pkt.psize).2) :
    ∃ x ∈ g.held, x.seq = a.pkt.seq ∧
      ((a.pkt.psize < x.segSize ∧ c.id = a.id ∧
          x ∈ (insertOrSendPacket now queue g a.pkt.seq a.id a.pkt.psize).1.held) ∨
        (x.segSize ≤ a.pkt.psize ∧ c.id = x.packetId ∧
          arriving a ∈ (insertOrSendPacket now queue g a.pkt.seq a.id a.pkt.psize).1.held)) := by
  rcases insertOrSendPacket_cases now queue g a.pkt.seq a.id a.pkt.psize with
    ⟨l, r, -, -, hcalls, -⟩ | ⟨l, x, r, h1, hx, h2, hcalls, -⟩
  · rw [hcalls] at hc
    cases hc
  · rw [hcalls, List.mem_singleton] at hc
    refine ⟨x, by rw [h1]; simp, hx, ?_⟩
    rw [h2, hc]
    unfold dropped retransmit
    split_ifs with hlarger
    · exact Or.inl ⟨hlarger, rfl, by simp⟩
    · exact Or.inr ⟨BitVec.not_lt.mp hlarger, rfl, by simp [arriving, hx]⟩

section Collisions
variable {now : ℚ} {queue : QHandle} {f : NfqFlowbuf} {p : Packet}

/-- What the condition says about the packets held at the insertion. -/
theorem PayloadOnly.at_insertion (h : PayloadOnly f p) (hs : Sized f) {g : NfqFlowbuf}
    (hg : insertion now queue f p = some g) :
    ∀ x ∈ g.held, x.seq = p.seq → 0 < x.segSize ∧ 0 < p.psize := by
  obtain ⟨hgt, ⟨hlt, rfl⟩ | ⟨hnlt, lowest, rest, hheld, hlow, rfl⟩⟩ := insertion_eq_some.mp hg
  · exact h.room (before_of_pos hgt) hlt
  · rw [sendPacketAt_held, hheld]
    exact h.full (before_of_pos hgt) (hs.eq_iff.mpr hnlt) lowest rest hheld hlow

variable (now queue) in
theorem payloadOnly_of_insertion (hs : Sized f) (hn : Near p.seq f.expectedNext)
    (h : ∀ g, insertion now queue f p = some g →
      ∀ x ∈ g.held, x.seq = p.seq → 0 < x.segSize ∧ 0 < p.psize) : PayloadOnly f p := by
  have hpos : before f.expectedNext p.seq = true → 0 < sdist p.seq f.expectedNext := fun hb => by
    have hswap := sdist_swap (a := p.seq) (b := f.expectedNext) (by have := hn.1; omega)
    rw [before_iff] at hb
    omega
  refine ⟨fun hb hlt => h f (insertion_eq_some.mpr ⟨hpos hb, Or.inl ⟨hlt, rfl⟩⟩),
    fun hb hsize lowest rest hheld hlow => ?_⟩
  have hrest := h _ (insertion_eq_some.mpr ⟨hpos hb,
    Or.inr ⟨hs.eq_iff.mp hsize, lowest, rest, hheld, hlow, rfl⟩⟩)
  rw [sendPacketAt_held, hheld] at hrest
  exact hrest

/-- **A collision shows up as a drop**: if the drops of an insertion are redundant, a packet of the
number of the new one carries payload, and so does the new one. -/
theorem payload_of_redundant {g : NfqFlowbuf} {a : Arrival}
    (ha : Ascending NfqFlowdata.seq f.held) (hsub : ∀ x ∈ g.held, x ∈ f.held)
    (ha' : Ascending NfqFlowdata.seq
      (insertOrSendPacket now queue g a.pkt.seq a.id a.pkt.psize).1.held)
    (hred : ∀ c ∈ (insertOrSendPacket now queue g a.pkt.seq a.id a.pkt.psize).2, ∃ gone,
      Redundant f (insertOrSendPacket now queue g a.pkt.seq a.id a.pkt.psize).1 a gone)
    {x : NfqFlowdata} (hx : x ∈ g.held) (hseq : x.seq = a.pkt.seq) :
    0 < x.segSize ∧ 0 < a.pkt.psize := by
  rcases insertOrSendPacket_cases now queue g a.pkt.seq a.id a.pkt.psize with
    ⟨l, r, h1, h2, -, -⟩ | ⟨l, y, r, h1, hy, -, hcalls, -⟩
  · -- the search has missed the packet, and its number is in the tree twice
    have hnd := ha'.nodup
    rw [h2, List.map_append, List.map_cons, List.nodup_middle, List.nodup_cons,
      ← List.map_append, ← h1] at hnd
    exact absurd (List.mem_map.mpr ⟨x, hx, hseq⟩) hnd.1
  · obtain ⟨gone, hpos, other, -, hsame, hle, hcase⟩ := hred
      ⟨queue, dropped a.id a.pkt.psize y, .drop⟩ (by rw [hcalls]; simp)
    rcases hcase with ⟨rfl, hother⟩ | ⟨hgone, rfl⟩
    · obtain rfl : other = x := ha.eq_of_seq hother (hsub x hx) (hsame.trans hseq.symm)
      exact ⟨by bv_omega, hpos⟩
    · obtain rfl : gone = x := ha.eq_of_seq hgone (hsub x hx) (hsame.symm.trans hseq.symm)
      have hle : gone.segSize ≤ a.pkt.psize := hle
      exact ⟨hpos, by bv_omega⟩

end Collisions

/-- What windowed runs keep of a flow. -/
def Kept (f : NfqFlowbuf) : Prop := Sized f ∧ Ascending NfqFlowdata.seq f.held

theorem stage_drops {nfq : Nfq} (hall : nfq.All Sized) {a : Arrival}
    (hw : PayloadCollisions nfq (.packet a)) :
    ∃ nfq', step nfq (.packet a) = some nfq' ∧ DropsRedundant nfq (.packet a) nfq' ∧
      nfq'.All Sized := by
  obtain ⟨nfq', f', calls, hr, e, hall', hat, -, hcalls, -⟩ := keeps_sized.packet hall a
  refine ⟨nfq', e, ⟨calls, hcalls, fun c hc hdrop => ?_⟩, hall'⟩
  obtain ⟨sent, kept, hheld, ⟨-, -, rfl⟩ | ⟨g, hg, rfl, rfl, rfl⟩⟩ := resequence_split hr
  · -- the arriving packet and the packets sent are accepted
    rcases List.mem_cons.mp hc with rfl | hc
    · cases hdrop
    · obtain ⟨x, -, rfl⟩ := List.mem_map.mp hc
      cases hdrop
  · rcases List.mem_append.mp hc with hc | hc
    · obtain ⟨x, -, rfl⟩ := List.mem_map.mp hc
      cases hdrop
    obtain ⟨x, hx, hseq, hcase⟩ := insertOrSendPacket_drops hc
    have hxf := mem_of_insertion hg hx
    rcases ho : nfq.flow a.pkt.sport a.pkt.dport with _ | f
    · rw [ho] at hxf
      cases hxf
    rw [ho, Option.getD_some] at hxf hg
    obtain ⟨hsize, hpsize⟩ := (hw f ho).at_insertion (hall.2 _ _ f ho) hg x hx hseq
    rcases hcase with ⟨hlarger, hid, hmem⟩ | ⟨hsmaller, hid, hmem⟩
    · exact ⟨a, f, _, arriving a, rfl, ho, hat, hid, hpsize, x, hmem, hseq,
        BitVec.le_of_lt hlarger, Or.inl ⟨rfl, hxf⟩⟩
    · exact ⟨a, f, _, x, rfl, ho, hat, hid, hsize, arriving a, hmem, hseq.symm, hsmaller,
        Or.inr ⟨hxf, rfl⟩⟩

/-- The other direction, within the window. -/
theorem collisions_of_drops {nfq nfq' : Nfq} (hall : nfq.All Kept) {a : Arrival}
    (hw : Windowed nfq (.packet a)) (hs : step nfq (.packet a) = some nfq')
    (hd : DropsRedundant nfq (.packet a) nfq') : PayloadCollisions nfq (.packet a) := by
  intro f hf
  obtain ⟨hsized, hasc⟩ := hall.2 _ _ f hf
  obtain ⟨f', calls, hr, -⟩ := hsized.resequence a.now a.queue a.id a.pkt
  have hr' : resequence a.now a.queue ((nfq.flow a.pkt.sport a.pkt.dport).getD
      (startFlowbuf a.now a.pkt.seq)) a.id a.pkt = some (f', calls) := by
    rw [hf]
    exact hr
  obtain ⟨nfq1, e, -, hat, -, hcalls, -⟩ := stage_spec hall.1 hr'
  rw [show step nfq (.packet a) = stage a nfq from rfl, e] at hs
  cases hs
  refine payloadOnly_of_insertion a.now a.queue hsized (hw f hf).1 fun g hg x hx hseq => ?_
  have hasc' := ascending_of_near hasc (hw f hf).2 hr
  obtain ⟨sent, kept, -, ⟨hno, -, -⟩ | ⟨g', hg', -, rfl, rfl⟩⟩ := resequence_split hr
  · rw [hno] at hg
    cases hg
  rw [hg'] at hg
  cases hg
  obtain ⟨calls, hcalls', hdrops⟩ := hd
  rw [hcalls] at hcalls'
  have hsame := List.append_cancel_left hcalls'
  refine payload_of_redundant hasc (fun y hy => mem_of_insertion hg' hy) hasc' (fun c hc => ?_) hx
    hseq
  have hdrop : c.verdict = .drop := by
    rcases insertOrSendPacket_cases a.now a.queue g a.pkt.seq a.id a.pkt.psize with
      ⟨l, r, -, -, hno, -⟩ | ⟨l, y, r, -, -, -, hone, -⟩
    · rw [hno] at hc
      cases hc
    · rw [hone, List.mem_singleton] at hc
      rw [hc]
  obtain ⟨a1, f1, f1', gone, ha1, hf1, hf1', -, hred⟩ :=
    hdrops c (by rw [← hsame]; exact List.mem_append_right _ hc) hdrop
  cases ha1
  rw [hf] at hf1
  rw [hat] at hf1'
  cases hf1
  cases hf1'
  exact ⟨gone, hred⟩

/-- One event. A timer drops nothing. -/
theorem step_drops {nfq : Nfq} (hall : nfq.All Sized) {ev : Event} (hw : PayloadCollisions nfq ev) :
    ∃ nfq', step nfq ev = some nfq' ∧ DropsRedundant nfq ev nfq' ∧ nfq'.All Sized := by
  rcases ev with a | ⟨now, fbuf⟩
  · exact stage_drops hall hw
  · obtain ⟨nfq', e, hall'⟩ := keeps_sized.event hall (.timer now fbuf)
    obtain ⟨nfq1, e1, -, -, hcase⟩ := fire_spec hall.1 now fbuf
    rw [show step nfq (.timer now fbuf) = fire now fbuf nfq from rfl, e1] at e
    cases e
    refine ⟨nfq', e1, ?_, hall'⟩
    rcases hcase with rfl | ⟨s, d, f, -, -, ⟨-, hcalls, -⟩ | ⟨-, -, hcalls⟩⟩
    · exact ⟨[], by simp, by simp⟩
    · exact ⟨[], by simp [hcalls], by simp⟩
    · refine ⟨_, hcalls, fun c hc hdrop => ?_⟩
      obtain ⟨x, -, rfl⟩ := List.mem_map.mp hc
      cases hdrop

/-- One event of a windowed run. -/
theorem step_drops_iff {nfq : Nfq} (hall : nfq.All Kept) {ev : Event} (hw : Windowed nfq ev) :
    ∃ nfq', step nfq ev = some nfq' ∧ (DropsRedundant nfq ev nfq' ↔ PayloadCollisions nfq ev) ∧
      nfq'.All Kept := by
  have hsized : nfq.All Sized := ⟨hall.1, fun s d f hf => (hall.2 s d f hf).1⟩
  rcases ev with a | ⟨now, fbuf⟩
  · have hk := hall.getD ⟨keeps_sized.start a.now a.pkt.seq, List.Pairwise.nil⟩ a.pkt.sport
      a.pkt.dport
    obtain ⟨f', calls, hr, hs'⟩ := hk.1.resequence a.now a.queue a.id a.pkt
    obtain ⟨nfq', e, hwf, hat, hother, -⟩ := stage_spec hall.1 hr
    refine ⟨nfq', e, ⟨collisions_of_drops hall hw e, fun h => ?_⟩,
      hall.set hwf hat ⟨hs', ascending_of_near hk.2 (near_of_windowed hw) hr⟩ hother⟩
    obtain ⟨nfq1, e1, hd, -⟩ := stage_drops hsized h
    rw [show step nfq (.packet a) = stage a nfq from rfl, e] at e1
    cases e1
    exact hd
  · obtain ⟨nfq', e, hall'⟩ := hall.fire (fun _ _ hf => hf) now fbuf
    obtain ⟨nfq1, e1, hd, -⟩ : ∃ nfq1, step nfq (.timer now fbuf) = some nfq1 ∧
        DropsRedundant nfq (.timer now fbuf) nfq1 ∧ nfq1.All Sized := step_drops hsized trivial
    rw [show step nfq (.timer now fbuf) = fire now fbuf nfq from rfl, e] at e1
    cases e1
    exact ⟨nfq', e, iff_of_true hd trivial, hall'⟩

/-! ### Runs -/

/-- **When the stage drops nothing but redundant payload**: in every run of packets and timers in
which packets collide with held ones only if both carry payload; and in a windowed run only then. -/
theorem drops_redundant_iff (evs : List Event) :
    (AllSteps step PayloadCollisions Nfq.init evs → AllRounds step DropsRedundant Nfq.init evs) ∧
    (AllSteps step Windowed Nfq.init evs → (AllRounds step DropsRedundant Nfq.init evs ↔
      AllSteps step PayloadCollisions Nfq.init evs)) :=
  ⟨allRounds_of_inv (fun _ _ hall hw => step_drops hall hw) (all_init Sized),
    allRounds_iff_allSteps (fun _ _ hall hw => step_drops_iff hall hw) (all_init Kept)⟩

/-- A held segment is retransmitted, with more payload. -/
def retransmitTrace : List Arrival := [segment 0 1000 10, segment 1 1050 10, segment 2 1050 20]

theorem drops_redundant_iff_retransmit :
    AllSteps step Windowed Nfq.init (retransmitTrace.map Event.packet) ∧
    AllRounds step DropsRedundant Nfq.init (retransmitTrace.map Event.packet) ∧
    AllSteps step PayloadCollisions Nfq.init (retransmitTrace.map Event.packet) := by
  have hw : AllSteps step Windowed Nfq.init (retransmitTrace.map Event.packet) := by
    refine allSteps_single (s := 7) (d := 9) (Q := fun st a => ∀ f ∈ st.buf,
      Near a.pkt.seq f.expectedNext ∧ ∀ x ∈ f.held, Near a.pkt.seq x.seq)
      (fun nfq st a hflow hQ f hf => hQ f (hflow ▸ hf)) ⟨none, []⟩ (all_init Sized) (by decide)
      (flow_init 7 9) ?_
    refine ⟨by decide, ?_⟩
    rintro _ ⟨⟩
    refine ⟨by decide, ?_⟩
    rintro _ ⟨⟩
    exact ⟨by decide, fun _ _ => trivial⟩
  have h : AllSteps step PayloadCollisions Nfq.init (retransmitTrace.map Event.packet) := by
    refine allSteps_single (s := 7) (d := 9) (Q := fun st a => ∀ f ∈ st.buf,
      f.size < fbufSiz ∧ ∀ x ∈ f.held, x.seq = a.pkt.seq → 0 < x.segSize ∧ 0 < a.pkt.psize)
      (fun nfq st a hflow hQ f hf => ?_) ⟨none, []⟩ (all_init Sized) (by decide)
      (flow_init 7 9) ?_
    · obtain ⟨hlt, hpay⟩ := hQ f (hflow ▸ hf)
      refine ⟨fun _ _ => hpay, fun _ hsize => ?_⟩
      rw [hsize] at hlt
      exact absurd hlt (BitVec.lt_irrefl _)
    refine ⟨by decide, ?_⟩
    rintro _ ⟨⟩
    refine ⟨by decide, ?_⟩
    rintro _ ⟨⟩
    exact ⟨by decide, fun _ _ => trivial⟩
  exact ⟨hw, ((drops_redundant_iff _).2 hw).mpr h, h⟩

/-- Two pure ACKs behind a gap in the data of the other direction. -/
def ackTrace : List Arrival := [segment 0 1000 10, segment 1 1020 0, segment 2 1020 0]

/-- **A pure ACK is dropped**: the second packet of `ackTrace` carries no payload. -/
theorem ack_dropped : ¬ AllRounds step DropsRedundant Nfq.init (ackTrace.map Event.packet) := by
  intro h
  have htwo : ∃ f, run flowStep ⟨none, []⟩ [segment 0 1000 10, segment 1 1020 0] =
      some ⟨some f, [⟨none, 0, .accept⟩]⟩ ∧ f.held = [⟨1020, 1, 0⟩] := ⟨_, rfl, by decide⟩
  have hall : ∃ buf, run flowStep ⟨none, []⟩ ackTrace =
      some ⟨buf, [⟨none, 0, .accept⟩, ⟨none, 1, .drop⟩]⟩ := ⟨_, rfl⟩
  obtain ⟨f, htwo, hheld⟩ := htwo
  obtain ⟨buf, hall⟩ := hall
  obtain ⟨nfq, hr, -, hflow, l, hcalls, hl⟩ := run_single (s := 7) (d := 9) wf_init (by decide)
    (flow_init 7 9) htwo
  obtain ⟨nfq', hr', -, -, l', hcalls', hl'⟩ := run_single (s := 7) (d := 9) wf_init (by decide)
    (flow_init 7 9) hall
  obtain ⟨nfq1, hs, calls, hcalls1, hdrops⟩ := h.last (i := .packet (segment 2 1020 0)) hr
  have hsame := (run_concat hr hs).symm.trans hr'
  cases hsame
  rw [List.nil_append] at hl hl'
  rw [hcalls', hcalls, ← hl, ← hl'] at hcalls1
  have hdrop : calls = [⟨none, 1, .drop⟩] := by simpa [Nfq.init] using hcalls1.symm
  obtain ⟨a, g, g', gone, ha, hg, -, hid, hpos, other, -, -, -, hcase⟩ :=
    hdrops ⟨none, 1, .drop⟩ (by simp [hdrop]) rfl
  cases ha
  obtain rfl : f = g := Option.some.inj (hflow.symm.trans hg)
  rcases hcase with ⟨rfl, -⟩ | ⟨hgone, -⟩
  · exact absurd hid (by decide)
  · rw [hheld, List.mem_singleton] at hgone
    rw [hgone] at hpos
    exact absurd hpos (by decide)

end DynBandwidth.Netfilter.Drops
