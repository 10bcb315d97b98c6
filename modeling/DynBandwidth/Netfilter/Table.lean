import DynBandwidth.Netfilter.Queue

/-! # The lists of flow buffers of `nfqueue.c`

The buffers of one source port are a doubly linked list that starts in `nfq.reorder_buf`. A packet
of a new flow appends a buffer, a timer that has run out takes one out, from any place of the list.
In every state of a run the lists are sound (`WellLinked`), a packet is handled on the listed buffer
of its ports or on a new one, and a destroyed buffer is gone for good while the others keep their
contents and their order (`table_wellLinked`). -/

namespace DynBandwidth.Netfilter.Table

open DynBandwidth.Lib.Buckets DynBandwidth.Lib.RbTree DynBandwidth.Lib.Runs
open DynBandwidth.Reorder.Header DynBandwidth.Netfilter.Stage DynBandwidth.Netfilter.Queue

/-- The addresses that following `next` from `nfq.reorder_buf[s]` visits. -/
def buffers (nfq : Nfq) (s : U16) : Option (List ℕ) :=
  follow nfq.reorderBuf.cells nfq.reorderBuf.cells.length (nfq.reorderBuf.head s)

/-- The buffers at the addresses `ps` are the list of the port `s`. -/
structure WellLinked (nfq : Nfq) (s : U16) (ps : List ℕ) : Prop where
  visits : buffers nfq s = some ps
  nodup : ps.Nodup
  sport : ∀ p ∈ ps, ∃ c, nfq.reorderBuf.cells[p]? = some c ∧ c.bucket = s
  dports : (ps.map (keyOf nfq.reorderBuf.cells)).Nodup
  prev : ∀ i p, ps[i]? = some p → ∃ c, nfq.reorderBuf.cells[p]? = some c ∧
    c.prev = if i = 0 then none else ps[i - 1]?

/-- The packet is handled on the buffer at the address `fbuf`, which is `f` at that moment. -/
def HandledOn (nfq : Nfq) (a : Arrival) (fbuf : ℕ) (f : NfqFlowbuf) (nfq' : Nfq) : Prop :=
  ∃ f' calls, resequence a.now a.queue f a.id a.pkt = some (f', calls) ∧
    HasCell nfq'.reorderBuf fbuf a.pkt.sport a.pkt.dport f' ∧ nfq'.calls = nfq.calls ++ calls

/-- The timer of the buffer calls `empty_and_destroy_buf`. -/
def Destroys (nfq : Nfq) (now : ℚ) (fbuf : ℕ) : Prop :=
  ∃ c, nfq.reorderBuf.cells[fbuf]? = some c ∧ c.val.timer.isSome = true ∧ TimedOut now c.val

/-! ### One state -/

section State
variable {nfq nfq' : Nfq} {L : U16 → List ℕ} (hL : Linked nfq.reorderBuf L)
include hL

theorem buffers_eq (s : U16) : buffers nfq s = some (L s) := hL.follow s

theorem wellLinked (s : U16) : WellLinked nfq s (L s) where
  visits := buffers_eq hL s
  nodup := hL.nodup s
  sport _ hp := hL.cell hp
  dports := hL.keys s
  prev _ _ hp := (hL.seg s).choose_spec.prev_eq hp

variable (hlisted : Listed nfq.reorderBuf L fun f => f.timer.isSome)
include hlisted

/-- **A packet is handled on the listed buffer of its ports**, or on a new one. -/
theorem step_packet (hsized : nfq.All Sized) (a : Arrival) :
    ∃ nfq', step nfq (.packet a) = some nfq' ∧
    (∀ fbuf f, fbuf ∈ L a.pkt.sport → HasCell nfq.reorderBuf fbuf a.pkt.sport a.pkt.dport f →
      HandledOn nfq a fbuf f nfq') ∧
    ((∀ fbuf ∈ L a.pkt.sport, keyOf nfq.reorderBuf.cells fbuf ≠ some a.pkt.dport) →
      buffers nfq' a.pkt.sport = some (L a.pkt.sport ++ [nfq.reorderBuf.cells.length]) ∧
      ∃ f, f.root = .nil ∧ f.expectedNext = a.pkt.seq ∧
        HandledOn nfq a nfq.reorderBuf.cells.length f nfq') := by
  obtain ⟨f', calls, hr, -⟩ := keeps_sized.handles hsized a
  obtain ⟨nfq', L', q, e, hL', -, hq, hcell, -, hcalls, -, hcase⟩ := stage_at hL hlisted hr
  refine ⟨nfq', e, fun fbuf f hp hf => ?_, fun hno => ?_⟩
  · obtain ⟨c, hc, hb, hk, rfl⟩ := hf
    have hflow : nfq.flow a.pkt.sport a.pkt.dport = some c.val :=
      (flowAt_eq_some hL).mpr ⟨fbuf, hp, c, hc, hk, rfl⟩
    rw [hflow, Option.getD_some] at hr
    rcases hcase with ⟨rfl, ⟨f0, -, c0, hc0, hb0, hk0, -⟩, -⟩ | ⟨hnone, -⟩
    · have hfq : fbuf = q := hL.key_inj hp hq (by simp [keyOf, hc, hc0, hk, hk0])
      exact ⟨f', calls, hr, hfq ▸ hcell, hcalls⟩
    · rw [hflow] at hnone
      cases hnone
  · have hnone : nfq.flow a.pkt.sport a.pkt.dport = none := (flowAt_eq_none hL).mpr hno
    rcases hcase with ⟨-, ⟨f0, hf0, -⟩, -⟩ | ⟨-, rfl, rfl, -⟩
    · rw [hnone] at hf0
      cases hf0
    · rw [hnone, Option.getD_none] at hr
      refine ⟨?_, startFlowbuf a.now a.pkt.seq, rfl, rfl, f', calls, hr, hcell, hcalls⟩
      rw [buffers_eq hL', Function.update_self]

/-- **Destroying a buffer** takes it out of its list, and leaves the other buffers as they are. -/
theorem step_destroys {now : ℚ} {fbuf : ℕ} (hd : Destroys nfq now fbuf)
    (e : step nfq (.timer now fbuf) = some nfq') :
    (∀ q ≠ fbuf, SameData nfq.reorderBuf.cells nfq'.reorderBuf.cells q) ∧
    ∃ L', Linked nfq'.reorderBuf L' ∧ (Listed nfq'.reorderBuf L' fun f => f.timer.isSome) ∧
      (∀ s, L' s = (L s).erase fbuf) ∧ fbuf < nfq'.reorderBuf.cells.length := by
  obtain ⟨c, hc, htimer, hout⟩ := hd
  obtain ⟨nfq1, L1, e1, hL1, hlisted1, -, hlen, hcase⟩ := fire_at hL hlisted now fbuf
  rw [show fire now fbuf nfq = some nfq' from e] at e1
  cases e1
  rcases hcase with ⟨-, -, hnot⟩ | ⟨c', hc', -, hp, -, -, hdata, ⟨hnot, -⟩ | ⟨-, rfl, -⟩⟩
  · rw [hnot c hc] at htimer
    cases htimer
  · rw [hc] at hc'
    cases hc'
    exact absurd hout hnot
  · refine ⟨hdata, _, hL1, hlisted1, fun s => ?_, hlen ▸ hL.lt hp⟩
    by_cases hs : s = c'.bucket
    · rw [hs, Function.update_self]
    · rw [Function.update_of_ne hs, List.erase_of_not_mem]
      exact fun hmem => hs (hL.bucket_eq hmem hp)

end State

/-! ### Later states -/

/-- The address was allocated and is in no list. -/
def Gone (fbuf : ℕ) (nfq : Nfq) : Prop := nfq.All Sized ∧
  ∃ L, Linked nfq.reorderBuf L ∧ (Listed nfq.reorderBuf L fun f => f.timer.isSome) ∧
    fbuf < nfq.reorderBuf.cells.length ∧ ∀ s, fbuf ∉ L s

/-- **What is gone stays gone**: a packet lists only new addresses, a timer none. -/
theorem gone_step {fbuf : ℕ} {nfq : Nfq} (h : Gone fbuf nfq) (ev : Event) :
    ∃ nfq', step nfq ev = some nfq' ∧ Gone fbuf nfq' := by
  obtain ⟨hsized, L, hL, hlisted, hlt, hno⟩ := h
  obtain ⟨nfq', e, hsized'⟩ := keeps_sized.event hsized ev
  refine ⟨nfq', e, hsized', ?_⟩
  rcases ev with a | ⟨now, q⟩
  · obtain ⟨f', calls, hr, -⟩ := keeps_sized.handles hsized a
    obtain ⟨nfq1, L1, p, e1, hL1, hlisted1, -, -, -, -, -, hcase⟩ := stage_at hL hlisted hr
    rw [show stage a nfq = some nfq' from e] at e1
    cases e1
    rcases hcase with ⟨rfl, -, hlen, -⟩ | ⟨-, rfl, rfl, hlen, -⟩
    · exact ⟨L1, hL1, hlisted1, by omega, hno⟩
    · refine ⟨_, hL1, hlisted1, by omega, fun s hmem => ?_⟩
      by_cases hs : s = a.pkt.sport
      · rw [hs, Function.update_self, List.mem_append, List.mem_singleton] at hmem
        rcases hmem with hmem | rfl
        · exact hno _ hmem
        · exact absurd hlt (lt_irrefl _)
      · rw [Function.update_of_ne hs] at hmem
        exact hno s hmem
  · obtain ⟨nfq1, L1, e1, hL1, hlisted1, -, hlen, hcase⟩ := fire_at hL hlisted now q
    rw [show fire now q nfq = some nfq' from e] at e1
    cases e1
    refine ⟨L1, hL1, hlisted1, hlen ▸ hlt, ?_⟩
    rcases hcase with ⟨-, rfl, -⟩ | ⟨c, -, -, -, -, -, -, ⟨-, rfl, -⟩ | ⟨-, rfl, -⟩⟩
    · exact hno
    · exact hno
    · intro s hmem
      by_cases hs : s = c.bucket
      · rw [hs, Function.update_self] at hmem
        exact hno _ (List.mem_of_mem_erase hmem)
      · rw [Function.update_of_ne hs] at hmem
        exact hno s hmem

theorem gone_run {fbuf : ℕ} {nfq nfq' : Nfq} (h : Gone fbuf nfq) {evs : List Event}
    (hr : run step nfq evs = some nfq') : Gone fbuf nfq' :=
  run_inv (fun _ ev hg => gone_step hg ev) h hr

/-- **The flow table stays well formed**: after any packets and timers,
* the buffers of each port are a sound doubly linked list of buffers with this source port and
  different destination ports;
* a packet is handled on the listed buffer of its ports, or else on a new buffer with an empty tree
  and `expected_next` at the number of the packet, which is appended to the list;
* a buffer that a timer destroys is in no list after any further events, and the lists keep their
  order and all other buffers their contents. -/
theorem table_wellLinked (evs : List Event) : ∃ nfq, run step Nfq.init evs = some nfq ∧
    (∀ s, ∃ ps, WellLinked nfq s ps) ∧
    (∀ a, ∃ nfq' ps, step nfq (.packet a) = some nfq' ∧ buffers nfq a.pkt.sport = some ps ∧
      (∀ fbuf f, fbuf ∈ ps → HasCell nfq.reorderBuf fbuf a.pkt.sport a.pkt.dport f →
        HandledOn nfq a fbuf f nfq') ∧
      ((∀ fbuf ∈ ps, keyOf nfq.reorderBuf.cells fbuf ≠ some a.pkt.dport) →
        buffers nfq' a.pkt.sport = some (ps ++ [nfq.reorderBuf.cells.length]) ∧
        ∃ f, f.root = .nil ∧ f.expectedNext = a.pkt.seq ∧
          HandledOn nfq a nfq.reorderBuf.cells.length f nfq')) ∧
    ∀ now fbuf, Destroys nfq now fbuf → ∃ nfq', step nfq (.timer now fbuf) = some nfq' ∧
      (∀ evs' nfq'', run step nfq' evs' = some nfq'' →
        ∀ s ps, buffers nfq'' s = some ps → fbuf ∉ ps) ∧
      (∀ s ps, buffers nfq s = some ps → buffers nfq' s = some (ps.erase fbuf)) ∧
      ∀ q ≠ fbuf, SameData nfq.reorderBuf.cells nfq'.reorderBuf.cells q := by
  obtain ⟨nfq, hr, hsized⟩ := keeps_sized.run_all evs
  obtain ⟨L, hL, hlisted⟩ := hsized.1
  refine ⟨nfq, hr, fun s => ⟨L s, wellLinked hL s⟩, fun a => ?_, fun now fbuf hd => ?_⟩
  · obtain ⟨nfq', e, hold, hnew⟩ := step_packet hL hlisted hsized a
    exact ⟨nfq', L a.pkt.sport, e, buffers_eq hL _, hold, hnew⟩
  · obtain ⟨nfq', e, hsized'⟩ := keeps_sized.event hsized (.timer now fbuf)
    obtain ⟨hdata, L', hL', hlisted', herase, hlt⟩ := step_destroys hL hlisted hd e
    have hgone : Gone fbuf nfq' := ⟨hsized', L', hL', hlisted', hlt, fun s hmem => by
      rw [herase] at hmem
      exact (hL.nodup s).not_mem_erase hmem⟩
    refine ⟨nfq', e, fun evs' nfq'' hr' s ps hps => ?_, fun s ps hps => ?_, hdata⟩
    · obtain ⟨-, L'', hL'', -, -, hno⟩ := gone_run hgone hr'
      rw [buffers_eq hL''] at hps
      cases hps
      exact hno s
    · rw [buffers_eq hL] at hps
      cases hps
      rw [buffers_eq hL', herase]

end DynBandwidth.Netfilter.Table
