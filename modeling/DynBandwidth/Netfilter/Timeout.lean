import DynBandwidth.Netfilter.Queue
import Mathlib.Tactic.Linarith

/-! # Idle flows

A flow is meant to be flushed when it was idle for `FBUF_TOUT`. The constant is not used: the field
`timeout` of a new buffer is zero and stays zero, so a timer that fires destroys the flow as soon as
the clock has moved on since its last activity. A flow is flushed only after `FBUF_TOUT` if and only
if its timer never fires earlier than that, unless the clock stands still (`flushes_idle_iff`).
Timers themselves are not lost: a linked flow always has one pending. -/

namespace DynBandwidth.Netfilter.Timeout

open DynBandwidth.Lib.Buckets DynBandwidth.Lib.Runs
open DynBandwidth.Reorder.Header DynBandwidth.Netfilter.Stage DynBandwidth.Netfilter.Queue

def fbufTout : ℚ := 1

/-- The time of an event. -/
def time : Event → ℚ
  | .packet a => a.now
  | .timer now _ => now

/-- A flow that the event destroys was idle for more than `FBUF_TOUT`, and every flow that is still
linked has a pending timer. -/
def FlushesIdle (nfq : Nfq) (ev : Event) (nfq' : Nfq) : Prop :=
  (∀ s d f, nfq.flow s d = some f → nfq'.flow s d = none →
    fbufTout < time ev - f.lastActivity) ∧
  ∀ s d f, nfq'.flow s d = some f → f.timer.isSome = true

/-- A pending timer that fires finds the clock at the last activity of its flow, or more than
`FBUF_TOUT` after it. -/
def FiresLate (nfq : Nfq) : Event → Prop
  | .packet _ => True
  | .timer now fbuf => ∀ c, nfq.reorderBuf.cells[fbuf]? = some c → c.val.timer.isSome = true →
      now ≤ c.val.lastActivity ∨ fbufTout < now - c.val.lastActivity

/-! ### One event -/

/-- What every run keeps of a flow. -/
structure Kept (f : NfqFlowbuf) : Prop where
  sized : Sized f
  timeout : f.timeout = 0
  pending : f.timer.isSome = true

theorem keeps_kept : Keeps Kept where
  start now seq := ⟨keeps_sized.start now seq, rfl, rfl⟩
  resequence f hf now queue id p := by
    obtain ⟨f', calls, hr, hsized⟩ := hf.sized.resequence now queue id p
    obtain ⟨htimer, htimeout⟩ := resequence_timer hr
    exact ⟨f', calls, hr, hsized, htimeout.trans hf.timeout, by rw [htimer]; exact hf.pending⟩
  timer _ _ hf := ⟨hf.sized, hf.timeout, rfl⟩

/-- **With a timeout of zero**, a flow has timed out as soon as the clock has moved on. -/
theorem Kept.timedOut_iff {f : NfqFlowbuf} (hf : Kept f) (now : ℚ) :
    TimedOut now f ↔ f.lastActivity < now := by
  rw [TimedOut, hf.timeout, add_zero, sub_neg]

/-- An event that leaves the flow it changes destroys none. -/
theorem flow_stays {nfq nfq' : Nfq} {s d : U16} {f : NfqFlowbuf} (hat : nfq'.flow s d = some f)
    (hother : ∀ s' d', ¬ (s' = s ∧ d' = d) → nfq'.flow s' d' = nfq.flow s' d') {s' d' : U16}
    {g : NfqFlowbuf} (hg : nfq.flow s' d' = some g) : nfq'.flow s' d' ≠ none := by
  by_cases hk : s' = s ∧ d' = d
  · rw [hk.1, hk.2, hat]
    exact Option.some_ne_none f
  · rw [hother s' d' hk, hg]
    exact Option.some_ne_none g

/-- One event. -/
theorem step_iff {nfq : Nfq} (hall : nfq.All Kept) (ev : Event) :
    ∃ nfq', step nfq ev = some nfq' ∧ (FlushesIdle nfq ev nfq' ↔ FiresLate nfq ev) ∧
      nfq'.All Kept := by
  obtain ⟨nfq', e, hall'⟩ := keeps_kept.event hall ev
  refine ⟨nfq', e, ?_, hall'⟩
  rw [FlushesIdle, and_iff_left fun s d f hf => (hall'.2 s d f hf).pending]
  rcases ev with a | ⟨now, fbuf⟩
  · obtain ⟨nfq1, f, calls, -, e1, -, hat, hother, -⟩ := keeps_kept.packet hall a
    obtain rfl : nfq' = nfq1 := Option.some.inj (e.symm.trans e1)
    exact iff_of_true (fun s d g hg hgone => absurd hgone (flow_stays hat hother hg)) trivial
  · obtain ⟨L, hL, hlisted⟩ := hall.1
    obtain ⟨nfq1, L', e1, -, -, -, -, hcase⟩ := fire_at hL hlisted now fbuf
    obtain rfl : nfq' = nfq1 := Option.some.inj (e.symm.trans e1)
    rcases hcase with ⟨rfl, -, hnone⟩ | ⟨c, hc, hpending, -, hflow, hother, -, hcase⟩
    · refine iff_of_true (fun s d f hf hgone => ?_) fun c hc hpending => ?_
      · rw [hf] at hgone
        cases hgone
      · rw [hnone c hc] at hpending
        cases hpending
    have hkept := hall.2 _ _ _ hflow
    have hlate : FiresLate nfq (.timer now fbuf) ↔
        now ≤ c.val.lastActivity ∨ fbufTout < now - c.val.lastActivity :=
      forall_pending_iff hc hpending
        (P := fun f => now ≤ f.lastActivity ∨ fbufTout < now - f.lastActivity)
    rw [hlate]
    rcases hcase with ⟨hnot, -, -, hat⟩ | ⟨hout, -, -, hat⟩
    · -- the timer is set again, and the flow stays
      rw [hkept.timedOut_iff, not_lt] at hnot
      exact iff_of_true (fun s d f hf hgone => absurd hgone (flow_stays hat hother hf))
        (Or.inl hnot)
    · rw [hkept.timedOut_iff] at hout
      refine ⟨fun h => Or.inr (h _ _ _ hflow hat), fun h s d f hf hgone => ?_⟩
      by_cases hk : s = c.bucket ∧ d = c.key
      · rw [hk.1, hk.2, hflow] at hf
        cases hf
        exact h.resolve_left (not_le.mpr hout)
      · rw [hother s d hk, hf] at hgone
        cases hgone

/-! ### Runs -/

/-- **Flows are flushed after `FBUF_TOUT` if and only if no timer fires in between**: in a run of
packets and timers, each flow that is destroyed was idle for more than `FBUF_TOUT` and each linked
flow has a pending timer if and only if each pending timer fires at the time of the last activity of
its flow or more than `FBUF_TOUT` later. -/
theorem flushes_idle_iff (evs : List Event) :
    AllRounds step FlushesIdle Nfq.init evs ↔ AllSteps step FiresLate Nfq.init evs :=
  allRounds_iff_allSteps (fun _ ev hall _ => step_iff hall ev) (all_init Kept)
    (allSteps_true step _ _)

/-- A timer fires no earlier than it was set to. -/
def NotEarly (nfq : Nfq) : Event → Prop
  | .packet _ => True
  | .timer now fbuf => ∀ c t, nfq.reorderBuf.cells[fbuf]? = some c → c.val.timer = some t → t ≤ now

/-- A packet at time `0`, and the timer of its flow half a unit later. -/
def halfTrace : List Event :=
  [.packet ⟨0, none, 0, ⟨7, 9, 10, 1000, 16, 0⟩⟩, .timer (1 / 2) 0]

/-- **A flow is flushed after half of `FBUF_TOUT`.** The clock of `halfTrace` does not go back, and
its timer, which was set to `0`, does not fire early. -/
theorem flushes_early : (halfTrace.map time).Pairwise (· ≤ ·) ∧
    AllSteps step NotEarly Nfq.init halfTrace ∧
    ¬ AllRounds step FlushesIdle Nfq.init halfTrace := by
  have hflow : ∃ st f, run flowStep ⟨none, []⟩ [⟨0, none, 0, ⟨7, 9, 10, 1000, 16, 0⟩⟩] = some st ∧
      st.buf = some f ∧ f.timer = some 0 ∧ f.lastActivity = 0 := ⟨_, _, rfl, rfl, rfl, rfl⟩
  obtain ⟨st, f, hr, hbuf, htimer, hlast⟩ := hflow
  obtain ⟨nfq, c, hrun, -, -, hc, hv⟩ := run_single_cell (s := 7) (d := 9) (by decide) hr
  obtain rfl : f = c.val := Option.some.inj (hbuf.symm.trans hv)
  refine ⟨by simp [halfTrace, time], ⟨trivial, fun nfq' h => ⟨fun c' t hc' ht => ?_, fun _ _ =>
    trivial⟩⟩, fun h => ?_⟩
  · obtain rfl : nfq' = nfq := Option.some.inj ((run_of_step h rfl).symm.trans hrun)
    rw [hc] at hc'
    cases hc'
    rw [htimer, Option.some.injEq] at ht
    rw [← ht]
    norm_num
  · rw [allRounds_iff_allSteps (fun _ ev hall _ => step_iff hall ev) (all_init Kept)
      (allSteps_true step _ _)] at h
    have hlate := h.last (l := [_]) hrun c hc (by rw [htimer]; rfl)
    rw [hlast, fbufTout] at hlate
    norm_num at hlate

end DynBandwidth.Netfilter.Timeout
