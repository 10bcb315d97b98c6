import DynBandwidth.Lib.Ledger
import DynBandwidth.Netfilter.Queue

/-! # One verdict for every packet

Packets with distinct ids enter the resequencing stage, and timers fire, in any order. The places of
the ledger are the flows, and a packet is done when `nfq_set_verdict` was called for it. The stage
rearranges the packets of one flow and the new one (`resequence_perm`), a timer those of the flow it
destroys (`fire_spec`). So at every moment each packet that entered is in exactly one node of one
flow and has no verdict, or is in no flow and has exactly one verdict (`one_verdict`). -/

namespace DynBandwidth.Netfilter.Verdicts

open DynBandwidth.Lib.Runs DynBandwidth.Lib.Ledger
open DynBandwidth.Reorder.Header DynBandwidth.Netfilter.Stage DynBandwidth.Netfilter.Queue

/-- The ids of the packets that enter with an event. -/
def eventIds : Event → List U32
  | .packet a => [a.id]
  | .timer _ _ => []

def enteredIds (evs : List Event) : List U32 := evs.flatMap eventIds

/-- The ids that the flow of a pair of ports holds. -/
def heldIds (nfq : Nfq) (k : U16 × U16) : List U32 :=
  ((nfq.flow k.1 k.2).map NfqFlowbuf.ids).getD []

def verdictIds (nfq : Nfq) : List U32 := nfq.calls.map Call.id

/-- What holds after the events `evs`. -/
structure Accounted (evs : List Event) (nfq : Nfq) : Prop where
  sized : nfq.All Sized
  balanced : Balanced (enteredIds evs) (heldIds nfq) (verdictIds nfq)
  owner : ∀ k, ∀ id ∈ heldIds nfq k, ∃ a, Event.packet a ∈ evs ∧ a.id = id ∧
    (a.pkt.sport, a.pkt.dport) = k

theorem heldIds_of_flow {nfq : Nfq} {s d : U16} {f : NfqFlowbuf} (h : nfq.flow s d = some f) :
    heldIds nfq (s, d) = f.ids := by simp [heldIds, h]

theorem heldIds_of_none {nfq : Nfq} {s d : U16} (h : nfq.flow s d = none) :
    heldIds nfq (s, d) = [] := by simp [heldIds, h]

theorem heldIds_congr {nfq nfq' : Nfq} {s d : U16}
    (h : ∀ s' d', ¬ (s' = s ∧ d' = d) → nfq'.flow s' d' = nfq.flow s' d') (k : U16 × U16)
    (hk : k ≠ (s, d)) : heldIds nfq' k = heldIds nfq k := by
  rw [heldIds, heldIds, h k.1 k.2 fun e => hk (Prod.ext e.1 e.2)]

theorem enteredIds_concat (evs : List Event) (ev : Event) :
    enteredIds (evs ++ [ev]) = enteredIds evs ++ eventIds ev := by simp [enteredIds]

theorem accounted_init : Accounted [] Nfq.init where
  sized := all_init Sized
  balanced := balanced_nil fun k => heldIds_of_none (flow_init k.1 k.2)
  owner k id h := by rw [heldIds_of_none (flow_init k.1 k.2)] at h; cases h

/-! ### One event -/

/-- **A packet**: it and the packets of its flow are held there afterwards or get a verdict. -/
theorem Accounted.packet {evs : List Event} {nfq nfq' : Nfq} (h : Accounted evs nfq) {a : Arrival}
    (hfresh : a.id ∉ enteredIds evs) (hall : nfq'.All Sized) (hs : stage a nfq = some nfq') :
    Accounted (evs ++ [.packet a]) nfq' := by
  obtain ⟨nfq1, f, calls, hr, e1, -, hat, hother, hcalls, -⟩ := keeps_sized.packet h.sized a
  rw [hs] at e1
  cases e1
  have hold : ((nfq.flow a.pkt.sport a.pkt.dport).getD (startFlowbuf a.now a.pkt.seq)).ids =
      heldIds nfq (a.pkt.sport, a.pkt.dport) := by
    rcases ho : nfq.flow a.pkt.sport a.pkt.dport with _ | g
    · rw [heldIds_of_none ho]
      rfl
    · rw [heldIds_of_flow ho]
      rfl
  have hperm := resequence_perm hr
  rw [hold, ← heldIds_of_flow hat] at hperm
  have hsame := heldIds_congr hother
  refine ⟨hall, ?_, fun k id hid => ?_⟩
  · rw [enteredIds_concat, verdictIds, hcalls, List.map_append]
    exact h.balanced.rearrange _ (List.nodup_singleton a.id) (by simpa [eventIds] using hfresh)
      hperm hsame
  · by_cases hk : k = (a.pkt.sport, a.pkt.dport)
    · rw [hk] at hid ⊢
      rcases List.mem_cons.mp (hperm.mem_iff.mpr (List.mem_append_left _ hid)) with rfl | hin
      · exact ⟨a, by simp, rfl, rfl⟩
      · obtain ⟨b, hb, hrest⟩ := h.owner _ id hin
        exact ⟨b, by simp [hb], hrest⟩
    · rw [hsame k hk] at hid
      obtain ⟨b, hb, hrest⟩ := h.owner k id hid
      exact ⟨b, by simp [hb], hrest⟩

/-- **A timer**: the packets of the flow that it destroys get a verdict. -/
theorem Accounted.timer {evs : List Event} {nfq nfq' : Nfq} (h : Accounted evs nfq) {now : ℚ}
    {fbuf : ℕ} (hall : nfq'.All Sized) (hs : fire now fbuf nfq = some nfq') :
    Accounted (evs ++ [.timer now fbuf]) nfq' := by
  obtain ⟨nfq1, e1, -, -, hcase⟩ := fire_spec h.sized.1 now fbuf
  rw [hs] at e1
  cases e1
  have howner : ∀ k, ∀ id ∈ heldIds nfq k, ∃ a, Event.packet a ∈ evs ++ [.timer now fbuf] ∧
      a.id = id ∧ (a.pkt.sport, a.pkt.dport) = k := fun k id hid => by
    obtain ⟨b, hb, hrest⟩ := h.owner k id hid
    exact ⟨b, by simp [hb], hrest⟩
  -- in each case the ids of a flow stay or become verdicts
  suffices hcore : ∃ k out, (heldIds nfq k).Perm (heldIds nfq' k ++ out) ∧
      verdictIds nfq' = verdictIds nfq ++ out ∧
      ∀ k', k' ≠ k → heldIds nfq' k' = heldIds nfq k' by
    obtain ⟨k, out, hperm, hcalls, hsame⟩ := hcore
    refine ⟨hall, ?_, fun k' id hid => ?_⟩
    · rw [enteredIds_concat, hcalls]
      exact h.balanced.rearrange k List.nodup_nil (List.forall_mem_nil _) hperm hsame
    · by_cases hk : k' = k
      · rw [hk] at hid ⊢
        exact howner k id (hperm.mem_iff.mpr (List.mem_append_left _ hid))
      · rw [hsame k' hk] at hid
        exact howner k' id hid
  rcases hcase with rfl | ⟨s, d, f, hf, hother, ⟨-, hcalls, hat⟩ | ⟨-, hat, hcalls⟩⟩
  · exact ⟨(0, 0), [], by simp, by simp, fun _ _ => rfl⟩
  · refine ⟨(s, d), [], ?_, by simp [verdictIds, hcalls], heldIds_congr hother⟩
    rw [heldIds_of_flow hf, heldIds_of_flow hat, List.append_nil]
    exact List.Perm.refl _
  · refine ⟨(s, d), f.ids, ?_, ?_, heldIds_congr hother⟩
    · rw [heldIds_of_flow hf, heldIds_of_none hat, List.nil_append]
    · rw [verdictIds, hcalls, List.map_append, map_id_accepted]
      rfl

/-- One event. -/
theorem Accounted.step {evs : List Event} {nfq : Nfq} (h : Accounted evs nfq) {ev : Event}
    (hfresh : ∀ id ∈ eventIds ev, id ∉ enteredIds evs) :
    ∃ nfq', Queue.step nfq ev = some nfq' ∧ Accounted (evs ++ [ev]) nfq' := by
  obtain ⟨nfq', e, hall⟩ := keeps_sized.event h.sized ev
  refine ⟨nfq', e, ?_⟩
  rcases ev with a | ⟨now, fbuf⟩
  · exact h.packet (hfresh a.id (by simp [eventIds])) hall e
  · exact h.timer hall e

/-! ### Runs -/

/-- A run of events with distinct ids. -/
theorem accounted_run : ∀ {evs pre : List Event} {nfq : Nfq}, Accounted pre nfq →
    (enteredIds (pre ++ evs)).Nodup →
    ∃ nfq', run Queue.step nfq evs = some nfq' ∧ Accounted (pre ++ evs) nfq'
  | [], pre, nfq, h, _ => ⟨nfq, rfl, by rw [List.append_nil]; exact h⟩
  | ev :: evs, pre, nfq, h, hnd => by
    have hfresh : ∀ id ∈ eventIds ev, id ∉ enteredIds pre := by
      intro id hev hpre
      rw [enteredIds, List.flatMap_append, List.flatMap_cons] at hnd
      exact (List.nodup_append.mp hnd).2.2 id hpre id (List.mem_append_left _ hev) rfl
    obtain ⟨nfq1, e1, h1⟩ := h.step hfresh
    rw [List.append_cons] at hnd ⊢
    obtain ⟨nfq', hr, h'⟩ := accounted_run h1 hnd
    exact ⟨nfq', run_of_step e1 hr, h'⟩

theorem packet_unique {evs : List Event} (hnd : (enteredIds evs).Nodup) {a b : Arrival}
    (ha : Event.packet a ∈ evs) (hb : Event.packet b ∈ evs) (hid : a.id = b.id) : a = b := by
  by_contra hne
  have : Std.Symm (Function.onFun List.Disjoint eventIds) := ⟨fun _ _ h => h.symm⟩
  have hdisj := (List.nodup_flatMap.mp hnd).2.forall ha hb (by simpa using hne)
  exact hdisj (a := a.id) (by simp [eventIds]) (by simp [eventIds, hid])

/-- The packet of a flow that is gone has its verdict. -/
theorem Accounted.verdict_of_gone {evs : List Event} {nfq : Nfq} (h : Accounted evs nfq)
    (hnd : (enteredIds evs).Nodup) {a : Arrival} (ha : Event.packet a ∈ evs)
    (hgone : nfq.flow a.pkt.sport a.pkt.dport = none) : (verdictIds nfq).count a.id = 1 := by
  have hin : a.id ∈ enteredIds evs := List.mem_flatMap.mpr ⟨_, ha, by simp [eventIds]⟩
  rcases h.balanced.exactly_one hin with ⟨k, hcount, -⟩ | ⟨-, hv⟩
  · have hheld : a.id ∈ heldIds nfq k := List.count_pos_iff.mp (by omega)
    obtain ⟨b, hb, hid, hports⟩ := h.owner k a.id hheld
    have hab : b = a := packet_unique hnd hb ha hid
    rw [hab] at hports
    rw [← hports, heldIds_of_none hgone] at hheld
    cases hheld
  · exact hv

/-- **Every packet gets exactly one verdict**: in a run of packets with distinct ids and of timers,
no event faults, and after any number of events
* each id that entered is in exactly one node of exactly one flow and has no verdict, or it is in no
  flow and was passed to `nfq_set_verdict` exactly once;
* each id with a verdict entered;
* each size is the number of nodes of the tree, at most `FBUF_SIZ`;
* if a timer now removes a flow, each packet of its ports has its verdict. -/
theorem one_verdict {evs : List Event} (hids : (enteredIds evs).Nodup) {pre : List Event}
    (hpre : pre <+: evs) : ∃ nfq, run step Nfq.init pre = some nfq ∧
      (∀ id ∈ enteredIds pre,
        (∃ s d f, nfq.flow s d = some f ∧ f.ids.count id = 1 ∧
          (∀ s' d' f', nfq.flow s' d' = some f' → id ∈ f'.ids → s' = s ∧ d' = d) ∧
          id ∉ nfq.calls.map Call.id) ∨
        ((∀ s d f, nfq.flow s d = some f → id ∉ f.ids) ∧ (nfq.calls.map Call.id).count id = 1)) ∧
      (∀ call ∈ nfq.calls, call.id ∈ enteredIds pre) ∧
      (∀ s d f, nfq.flow s d = some f →
        f.size = BitVec.ofNat 32 f.held.length ∧ f.held.length ≤ fbufSiz.toNat) ∧
      ∀ now fbuf nfq' s d, step nfq (.timer now fbuf) = some nfq' → nfq'.flow s d = none →
        ∀ a, Event.packet a ∈ pre → a.pkt.sport = s → a.pkt.dport = d →
          (nfq'.calls.map Call.id).count a.id = 1 := by
  obtain ⟨post, rfl⟩ := hpre
  have hnd : (enteredIds pre).Nodup := by
    rw [enteredIds, List.flatMap_append] at hids
    exact (List.nodup_append.mp hids).1
  obtain ⟨nfq, hr, h⟩ := accounted_run accounted_init (List.nil_append pre ▸ hnd)
  rw [List.nil_append] at h
  refine ⟨nfq, hr, fun id hid => ?_, fun call hc => ?_, fun s d f hf => h.sized.2 s d f hf, ?_⟩
  · rcases h.balanced.exactly_one hid with ⟨k, hcount, hk, hv⟩ | ⟨hno, hv⟩
    · left
      rcases hf : nfq.flow k.1 k.2 with _ | f
      · rw [show k = (k.1, k.2) from rfl, heldIds_of_none hf] at hcount
        simp at hcount
      · rw [show k = (k.1, k.2) from rfl, heldIds_of_flow hf] at hcount
        refine ⟨k.1, k.2, f, hf, hcount, fun s d g hg hin => ?_, hv⟩
        rw [← heldIds_of_flow hg] at hin
        have e := hk (s, d) hin
        exact ⟨congrArg Prod.fst e, congrArg Prod.snd e⟩
    · refine Or.inr ⟨fun s d f hf hin => hno (s, d) ?_, hv⟩
      rw [heldIds_of_flow hf]
      exact hin
  · exact (h.balanced.mem_iff call.id).mpr (Or.inl (List.mem_map_of_mem hc))
  · rintro now fbuf nfq' s d hs hgone a ha rfl rfl
    obtain ⟨nfq1, e1, hall⟩ := keeps_sized.event h.sized (.timer now fbuf)
    rw [hs] at e1
    cases e1
    refine (h.timer hall hs).verdict_of_gone ?_ (List.mem_append_left _ ha) hgone
    rw [enteredIds_concat]
    simpa [eventIds] using hnd

/-- A packet that is sent and one that is held. -/
def twoPackets : List Event :=
  [.packet ⟨0, none, 0, ⟨7, 9, 10, 1000, 16, 0⟩⟩, .packet ⟨0, none, 1, ⟨7, 9, 10, 1050, 16, 0⟩⟩]

theorem one_verdict_timeout : (enteredIds twoPackets).Nodup ∧
    ∃ nfq, run step Nfq.init twoPackets = some nfq ∧ (∀ call ∈ nfq.calls, call.id ∈ [0, 1]) ∧
      ∀ now fbuf nfq', step nfq (.timer now fbuf) = some nfq' → nfq'.flow 7 9 = none →
        (nfq'.calls.map Call.id).count 1 = 1 := by
  have hids : (enteredIds twoPackets).Nodup := by decide
  obtain ⟨nfq, hr, -, hcalls, -, htimer⟩ := one_verdict hids List.prefix_rfl
  refine ⟨hids, nfq, hr, hcalls, fun now fbuf nfq' hs hgone => ?_⟩
  exact htimer now fbuf nfq' 7 9 hs hgone ⟨0, none, 1, ⟨7, 9, 10, 1050, 16, 0⟩⟩
    (by simp [twoPackets]) rfl rfl

end DynBandwidth.Netfilter.Verdicts
