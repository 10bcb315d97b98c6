import DynBandwidth.Reorder.Counter
import Mathlib.Data.FinEnum
import Mathlib.Data.Fintype.Prod

/-! # The books of `reorder_counter.c`

A segment is counted when it is stored, and leaves the tree through `send_packet_at` only. So the
count is, modulo `2 ^ 64`, the number of segments held in all flows and of those sent so far. A call
sends no more segments than the flow holds, so that `size--` does not wrap, and a full buffer has a
first node (`books_balance`). -/

namespace DynBandwidth.Reorder.CounterBooks

open DynBandwidth.Lib.RbTree DynBandwidth.Lib.Runs
open DynBandwidth.Reorder.Header DynBandwidth.Reorder.Flows DynBandwidth.Reorder.Counter

/-- The size of the flow of a pair of ports, `0` if there is none. -/
def sizeAt (rc : Rc) (k : U16 × U16) : ℕ := (rc.flow k.1 k.2).elim 0 fun f => f.size.toNat

/-- The count is the number of segments held or sent. -/
def Balanced (rc : Rc) : Prop :=
  rc.reorderCount = BitVec.ofNat 64 (∑ k, sizeAt rc k + rc.sent.length)

/-! ### One packet -/

theorem toNat_size {f : RcFlowbuf} (h : Sized f) : f.size.toNat = f.held.length := by
  have hlen := h.2
  rw [h.1, BitVec.toNat_ofNat, Nat.mod_eq_of_lt (by omega)]

/-- What a packet counts is what it adds to the segments held and sent. -/
theorem counted_eq {f f' : RcFlowbuf} {p : Packet} {e : Effect}
    (h : lowestFirst f p = some (f', e)) : e.sent.length ≤ f.held.length ∧
      ∃ n, e.counted = BitVec.ofNat 64 n ∧
        f'.held.length + e.sent.length = f.held.length + n := by
  obtain ⟨kept, hheld, hcase⟩ := lowestFirst_split h
  have hlen : f.held.length = e.sent.length + kept.length := by rw [hheld, List.length_append]
  refine ⟨by omega, ?_⟩
  rcases hcase with ⟨-, hkept, hcounted⟩ | ⟨g, -, hkept, rfl, hcounted⟩
  · exact ⟨0, hcounted, by rw [hkept]; omega⟩
  · obtain ⟨n, -, hlen', -, hn⟩ := insertOrSendPacket_size g p.seq p.psize
    exact ⟨n, hcounted.trans hn, by rw [hlen', hkept]; omega⟩

/-- Two sums whose terms agree but at `k`. -/
theorem sum_add_eq {κ : Type} [Fintype κ] [DecidableEq κ] {f g : κ → ℕ} (k : κ)
    (h : ∀ k' ≠ k, g k' = f k') : ∑ k', g k' + f k = ∑ k', f k' + g k := by
  have hrest : ∑ k' ∈ Finset.univ.erase k, g k' = ∑ k' ∈ Finset.univ.erase k, f k' :=
    Finset.sum_congr rfl fun k' hk' => h k' (Finset.ne_of_mem_erase hk')
  rw [← Finset.add_sum_erase _ g (Finset.mem_univ k),
    ← Finset.add_sum_erase _ f (Finset.mem_univ k), hrest]
  omega

/-- The other flows keep their sizes. -/
theorem sum_sizeAt {rc rc' : Rc} {s d : U16}
    (hother : ∀ s' d', ¬ (s' = s ∧ d' = d) → rc'.flow s' d' = rc.flow s' d') :
    ∑ k, sizeAt rc' k + sizeAt rc (s, d) = ∑ k, sizeAt rc k + sizeAt rc' (s, d) := by
  refine sum_add_eq (s, d) fun k hk => ?_
  rw [sizeAt, sizeAt, hother]
  rintro ⟨h1, h2⟩
  exact hk (Prod.ext h1 h2)

/-- **A packet keeps the books balanced**, and sends no more than its flow holds. -/
theorem step_balanced {rc : Rc} (hall : rc.All Sized) (hb : Balanced rc) (p : Packet) :
    ∃ rc' sent, rcHandlePacket rc p = some rc' ∧ rc'.All Sized ∧ Balanced rc' ∧
      rc'.sent = rc.sent ++ sent ∧ sent.length ≤ sizeAt rc (p.sport, p.dport) := by
  have hsized := hall.getD (keeps_sized.fresh p) p.sport p.dport
  obtain ⟨f', e, hstep, hsized'⟩ := keeps_sized.step _ p hsized
  obtain ⟨rc', hr, hwf, hat, hother, hcount, hsent⟩ := rcHandlePacket_spec handler hall.1 hstep
  obtain ⟨hle, n, hn, hlen⟩ := counted_eq hstep
  have hbefore : sizeAt rc (p.sport, p.dport) =
      ((rc.flow p.sport p.dport).getD (handler.fresh p)).held.length := by
    rw [sizeAt]
    rcases ho : rc.flow p.sport p.dport with _ | f
    · rfl
    · exact toNat_size (hall.2 _ _ f ho)
  have hafter : sizeAt rc' (p.sport, p.dport) = f'.held.length := by
    rw [sizeAt, hat]
    exact toNat_size hsized'
  have hsum := sum_sizeAt hother
  refine ⟨rc', e.sent, hr, hall.step hwf hat hsized' hother, ?_, hsent, by omega⟩
  unfold Balanced at hb ⊢
  rw [hcount, hb, hn, hsent, List.length_append, ← BitVec.ofNat_add]
  refine congrArg (BitVec.ofNat 64) ?_
  omega

/-! ### Runs -/

/-- **The books balance**: after any packets each size is the number of nodes of the tree, at most
`FBUF_SIZ`, and a full tree has a first node. The count is the sum of all sizes and of the calls of
`send_packet_at`, modulo `2 ^ 64`, and the next packet sends no more segments than its flow holds.
-/
theorem books_balance (tr : List Packet) : ∃ rc, run rcHandlePacket Rc.init tr = some rc ∧
    (∀ s d f, rc.flow s d = some f → f.size.toNat = f.held.length ∧ f.size ≤ fbufSiz ∧
      (¬ f.size < fbufSiz → f.root.first.isSome = true)) ∧
    rc.reorderCount = BitVec.ofNat 64 (∑ k, sizeAt rc k + rc.sent.length) ∧
    ∀ p, ∃ rc' sent, rcHandlePacket rc p = some rc' ∧ rc'.sent = rc.sent ++ sent ∧
      sent.length ≤ sizeAt rc (p.sport, p.dport) := by
  have hinit : Balanced Rc.init := by
    have hsum : ∑ k, sizeAt Rc.init k = 0 := Finset.sum_eq_zero fun k _ => by
      rw [sizeAt, flow_init]
      rfl
    rw [Balanced, hsum]
    rfl
  obtain ⟨rc, hr, hall, hb⟩ := run_total (I := fun rc => rc.All Sized ∧ Balanced rc) tr
    (fun p _ rc h => by
      obtain ⟨rc', -, hr, hall, hb, -⟩ := step_balanced h.1 h.2 p
      exact ⟨rc', hr, hall, hb⟩) ⟨all_init Sized, hinit⟩
  refine ⟨rc, hr, fun s d f hf => ?_, hb, fun p => ?_⟩
  · have hsized := hall.2 s d f hf
    have hsize := toNat_size hsized
    have hlen := hsized.2
    refine ⟨hsize, ?_, fun hfull => ?_⟩
    · rw [BitVec.le_def, hsize]
      exact hlen
    · rw [hsized.lt_iff] at hfull
      rw [first_eq_head?, ← RcFlowbuf.held]
      rcases hheld : f.held with _ | ⟨x, xs⟩
      · rw [hheld] at hfull
        exact absurd (by decide) hfull
      · rfl
  · obtain ⟨rc', sent, hr, -, -, hsent, hle⟩ := step_balanced hall hb p
    exact ⟨rc', sent, hr, hsent, hle⟩

end DynBandwidth.Reorder.CounterBooks
