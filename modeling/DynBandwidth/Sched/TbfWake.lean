import DynBandwidth.Sched.TbfShape

/-! # When a packet leaves the token bucket

A packet that cannot be paid for yet stays, and the token bucket sets its watchdog. If the buckets
are deep enough for the packet at all, the watchdog is exact: no packet leaves before its time,
whatever arrives and however often the device asks, and the packet leaves when the device asks at
its time or later (`throttled_leaves`). If the price is more than the depth of the bucket nothing
leaves until the parameters are changed (`blocked`): this is what happens to a packet that was let
in before the burst was made smaller. -/

namespace DynBandwidth.Sched.TbfWake

open DynBandwidth.Lib.Runs DynBandwidth.Lib.Signed DynBandwidth.Lib.TokenBucket
open DynBandwidth.Sched.Rates DynBandwidth.Sched.Parms DynBandwidth.Sched.Qdisc
open DynBandwidth.Sched.Tbf
open DynBandwidth.Sched.TbfShape
open DynBandwidth.Reorder.Header (U32 U64)

/-! ### The time from which a packet can be paid for -/

section Wake
variable {σ : Type} {s s' : TbfSched σ} {now : U64} {len : U32}

/-- The time from which both buckets can pay for a packet. -/
def wake (s : TbfSched σ) (len : U32) : ℤ :=
  let t := (s.tC.toNat : ℤ) + ((pschedL2tNs s.rate len).toNat - s.tokens.toNat)
  if s.peakPresent then max t (s.tC.toNat + ((pschedL2tNs s.peak len).toNat - s.ptokens.toNat))
  else t

/-- Both buckets are deep enough for a packet. The last condition is there because the time that has
passed is cut to the depth of the first bucket also for the second one. -/
structure Fits (s : TbfSched σ) (len : U32) : Prop where
  rate : pschedL2tNs s.rate len ≤ s.buffer
  peak : s.peakPresent = true → pschedL2tNs s.peak len ≤ s.mtu ∧ pschedL2tNs s.peak len ≤ s.buffer

theorem toks_nonneg_iff (hs : Bounded s) (htime : s.tC ≤ now) (hnow : now.toNat < 2 ^ 62) :
    0 ≤ (s.toks now len).toInt ↔ pschedL2tNs s.rate len ≤ s.buffer ∧
      (s.tC.toNat : ℤ) + ((pschedL2tNs s.rate len).toNat - s.tokens.toNat) ≤ now.toNat := by
  rw [toInt_toks hs htime hnow, sub_nonneg, le_level_iff, BitVec.le_def, Int.ofNat_le]

/-- **From when a packet may leave.** -/
theorem allows_iff_wake (hs : Bounded s) (htime : s.tC ≤ now) (hnow : now.toNat < 2 ^ 62)
    (hfit : Fits s len) : s.allows now len = true ↔ wake s len ≤ now.toNat := by
  have hle : s.tC.toNat ≤ now.toNat := htime
  rw [allows_iff, toks_nonneg_iff hs htime hnow, wake]
  cases hp : s.peakPresent with
  | false =>
    rw [ptoks_of_not hp]
    simp [hfit.rate]
  | true =>
    obtain ⟨hm, hb⟩ := hfit.peak hp
    rw [BitVec.le_def] at hm hb
    rw [toInt_ptoks hs htime hnow len hp, if_pos rfl, max_le_iff]
    simp only [hfit.rate, true_and]
    exact and_congr_right fun _ => by omega

/-- **The watchdog is set to that time.** -/
theorem toNat_watchdog (hs : Bounded s) (htime : s.tC ≤ now) (hnow : now.toNat < 2 ^ 62)
    (hfit : Fits s len) (hno : s.allows now len = false) :
    ((now + maxS64 (-s.toks now len) (-s.ptoks now len)).toNat : ℤ) = wake s len := by
  have hle : s.tC.toNat ≤ now.toNat := htime
  have hr := hfit.rate
  rw [BitVec.le_def] at hr
  have hlate : ¬ wake s len ≤ now.toNat := fun h => by
    rw [(allows_iff_wake hs htime hnow hfit).mpr h] at hno
    cases hno
  have ht := toInt_toks hs htime hnow len
  unfold Bucket.level at ht
  dsimp only at ht
  have htok := hs.tokens
  have hprice := hs.price len
  have hptok := hs.ptokens
  have hpprice := hs.pprice len
  have hbuf := hs.buffer
  have hneg : (-s.toks now len).toInt = -(s.toks now len).toInt := toInt_neg_of_lt (by omega)
  unfold wake at hlate ⊢
  cases hp : s.peakPresent with
  | false =>
    rw [hp] at hlate
    simp only [Bool.false_eq_true, if_false] at hlate ⊢
    have hmax : (maxS64 (-s.toks now len) (-s.ptoks now len)).toInt = -(s.toks now len).toInt := by
      rw [toInt_maxS64, hneg, ptoks_of_not hp]
      have hz : (-0 : U64).toInt = 0 := rfl
      rw [hz]
      omega
    rw [toNat_add_of_nonneg (by omega) (by omega), hmax]
    omega
  | true =>
    obtain ⟨hm, hb⟩ := hfit.peak hp
    rw [BitVec.le_def] at hm hb
    rw [hp] at hlate
    simp only [if_true] at hlate ⊢
    have hpt := toInt_ptoks hs htime hnow len hp
    have hmtu := hs.mtu
    have hpneg : (-s.ptoks now len).toInt = -(s.ptoks now len).toInt := toInt_neg_of_lt (by omega)
    have hmax : (maxS64 (-s.toks now len) (-s.ptoks now len)).toInt =
        max (-(s.toks now len).toInt) (-(s.ptoks now len).toInt) := by
      rw [toInt_maxS64, hneg, hpneg]
    rw [toNat_add_of_nonneg (by omega) (by omega), hmax]
    omega

theorem allows_congr (h : SameBuckets s s') (now : U64) (len : U32) :
    s'.allows now len = s.allows now len := by
  unfold TbfSched.allows TbfSched.toks TbfSched.ptoks TbfSched.peakPresent
  rw [h.tC, h.buffer, h.tokens, h.rate, h.peak, h.ptokens, h.mtu]

end Wake

/-! ### A packet at the front -/

section Front
variable {σ : Type} {e : Env σ} {front : σ → Option Skb} {skb : Skb}

/-- The packet is at the front of the discipline inside. -/
def Front (front : σ → Option Skb) (skb : Skb) (q : Option σ) : Prop :=
  ∃ c, q = some c ∧ front c = some skb

theorem front_peek (hh : e.ops.Holds front) {now : U64} {q : Option σ}
    (h : (qdiscPeek e.ops now q).2 = some skb) : Front front skb (qdiscPeek e.ops now q).1 := by
  cases q with
  | none => cases h
  | some c => exact ⟨_, rfl, hh.peek h⟩

theorem peek_front (hh : e.ops.Holds front) (now : U64) {q : Option σ} (h : Front front skb q) :
    qdiscPeek e.ops now q = (q, some skb) := by
  obtain ⟨c, rfl, hc⟩ := h
  rw [qdiscPeek, hh.again hc]

theorem front_qdiscEnqueue (hh : e.ops.Holds front) (now : U64) {q : Option σ}
    (h : Front front skb q) (skb' : Skb) : Front front skb (qdiscEnqueue e.ops now q skb').1 := by
  obtain ⟨c, rfl, hc⟩ := h
  exact ⟨_, rfl, hh.enqueue hc⟩

/-- Nothing that arrives gets before the packet. -/
theorem front_tbfEnqueue (hh : e.ops.Holds front) (now : U64) {s : TbfSched σ}
    (h : Front front skb s.qdisc) (skb' : Skb) :
    Front front skb (tbfEnqueue e now s skb').1.qdisc :=
  tbfEnqueue_inner (fun _ x _ hq => front_qdiscEnqueue hh now hq x) h

end Front

/-! ### Runs in which the packet waits -/

section Waiting
variable {σ : Type} {e : Env σ} {refills : Bool} {front : σ → Option Skb} {skb : Skb}
  {s : TbfSched σ} {start : U64} {w : World σ}

/-- Packets arrive, and the device asks for packets when there are not enough tokens. -/
def Quiet (s : TbfSched σ) (len : U32) : Event → Prop
  | .enqueue _ _ => True
  | .dequeue now => s.allows now len = false
  | .change _ _ => False
  | .reset _ => False

/-- The packet is at the front, the buckets are as they were, and nothing was sent. -/
structure Waiting (front : σ → Option Skb) (skb : Skb) (s : TbfSched σ) (log : List Entry)
    (w : World σ) : Prop where
  front : Front front skb w.q.qdisc
  same : SameBuckets s w.q
  log : w.log = log

/-- A dequeue that is throttled. -/
theorem tbfDequeue_throttled {now : U64} {q : TbfSched σ} {r : Option σ}
    (hp : qdiscPeek e.ops now q.qdisc = (r, some skb)) (hno : q.allows now skb.len = false) :
    tbfDequeue e now q = ({ q with
      qdisc := r
      watchdog := some (now + maxS64 (-q.toks now skb.len) (-q.ptoks now skb.len))
      overlimits := q.overlimits + 1 }, none) := by
  unfold tbfDequeue
  rw [hp]
  dsimp only
  rw [hno]
  rfl

/-- A dequeue that is not throttled. -/
theorem tbfDequeue_sent (hh : e.ops.Holds front) {now : U64} {q : TbfSched σ}
    (hf : Front front skb q.qdisc) (hok : q.allows now skb.len = true) :
    (tbfDequeue e now q).2 = some skb := by
  obtain ⟨c, hc, hcf⟩ := hf
  have hp : qdiscPeek e.ops now q.qdisc = (some c, some skb) := by
    rw [hc]
    exact peek_front hh now ⟨c, rfl, hcf⟩
  have hd : qdiscDequeuePeeked e.ops now (some c) =
      (some (e.ops.dequeuePeeked now c).1, some skb) := Prod.ext rfl (hh.dequeue hcf)
  unfold tbfDequeue
  rw [hp]
  dsimp only
  rw [if_pos hok, hd]

/-- **A quiet event** leaves the packet where it is. -/
theorem Waiting.step (hh : e.ops.Holds front) {log : List Entry} (h : Waiting front skb s log w)
    {ev : Event} (hq : Quiet s skb.len ev) :
    ∃ w', TbfShape.step e refills w ev = some w' ∧ Waiting front skb s log w' := by
  cases ev with
  | enqueue now skb' =>
    exact ⟨_, rfl, front_tbfEnqueue hh now h.front skb',
      h.same.trans (sameBuckets_enqueue e now w.q skb'), h.log⟩
  | dequeue now =>
    have hno : w.q.allows now skb.len = false := by rw [allows_congr h.same]; exact hq
    refine ⟨_, rfl, ?_⟩
    rw [tbfDequeue_throttled (peek_front hh now h.front) hno]
    refine ⟨h.front, h.same.trans ?_, ?_⟩
    · exact ⟨rfl, rfl, rfl, rfl, rfl, rfl, rfl, rfl⟩
    · exact (List.append_nil _).trans h.log
  | change now opt => exact hq.elim
  | reset now => exact hq.elim

/-- **In a run of quiet events** the packet waits. -/
theorem Waiting.run (hf : e.ops.Holds front) {log : List Entry} {P : World σ → Event → Prop}
    (hP : ∀ v ev, Inv start v → Waiting front skb s log v → P v ev →
      Clocked v ev ∧ Quiet s skb.len ev)
    (hI : Inv start w) (h : Waiting front skb s log w) {evs : List Event} {w' : World σ}
    (hq : AllSteps (TbfShape.step e refills) P w evs)
    (hrun : Lib.Runs.run (TbfShape.step e refills) w evs = some w') :
    Inv start w' ∧ Waiting front skb s log w' := by
  refine run_inv_of_allSteps (I := fun w => Inv start w ∧ Waiting front skb s log w)
    (fun v ev hv hev => ?_) ⟨hI, h⟩ hq hrun
  obtain ⟨hc, hquiet⟩ := hP v ev hv.1 hv.2 hev
  obtain ⟨v1, h1, hI1⟩ : ∃ v1, TbfShape.step e refills v ev = some v1 ∧ Inv start v1 :=
    hv.1.step hf.faithful hc
  obtain ⟨v2, h2, hw2⟩ : ∃ v2, TbfShape.step e refills v ev = some v2 ∧
      Waiting front skb s log v2 := hv.2.step hf hquiet
  cases h1.symm.trans h2
  exact ⟨v1, h1, hI1, hw2⟩

/-- After a dequeue that shows a packet and is throttled, the packet waits. -/
theorem waiting_of_throttled (hh : e.ops.Holds front) (hI : Inv start w) {now : U64}
    (hnow : Clocked w (.dequeue now)) (hpeek : (qdiscPeek e.ops now w.q.qdisc).2 = some skb)
    (hno : w.q.allows now skb.len = false) :
    ∃ w1, TbfShape.step e refills w (.dequeue now) = some w1 ∧ Inv start w1 ∧
      Waiting front skb w.q w.log w1 ∧
      w1.q.watchdog = some (now + maxS64 (-w.q.toks now skb.len) (-w.q.ptoks now skb.len)) := by
  have heq : qdiscPeek e.ops now w.q.qdisc = ((qdiscPeek e.ops now w.q.qdisc).1, some skb) :=
    Prod.ext rfl hpeek
  obtain ⟨w1, h1, hI1⟩ : ∃ w1, TbfShape.step e refills w (.dequeue now) = some w1 ∧
      Inv start w1 := hI.step hh.faithful hnow
  refine ⟨w1, h1, hI1, ?_⟩
  cases h1
  refine ⟨⟨?_, ?_, ?_⟩, ?_⟩ <;> rw [tbfDequeue_throttled heq hno]
  · exact front_peek hh hpeek
  · exact ⟨rfl, rfl, rfl, rfl, rfl, rfl, rfl, rfl⟩
  · exact List.append_nil _

end Waiting

/-! ### The watchdog is exact -/

section Exact
variable {σ : Type} {e : Env σ} {refills : Bool} {front : σ → Option Skb} {skb : Skb}
  {start now : U64} {inner : Option σ} {evs : List Event} {w : World σ}

/-- Packets arrive, and the device asks for packets before a time. -/
def Before (t : U64) : Event → Prop
  | .enqueue _ _ => True
  | .dequeue now => now < t
  | .change _ _ => False
  | .reset _ => False

/-- **The watchdog is exact**, over a discipline that keeps at its front what it has shown: after a
dequeue that is throttled, nothing leaves before the time of the watchdog, and the packet leaves
with a dequeue at this time or later. -/
theorem throttled_leaves (hh : e.ops.Holds front) (hstart : start.toNat < 2 ^ 62)
    (hclock : AllSteps (step e refills) Clocked (World.start start inner) evs)
    (hrun : run (step e refills) (World.start start inner) evs = some w)
    (hnow : Clocked w (.dequeue now)) (hpeek : (qdiscPeek e.ops now w.q.qdisc).2 = some skb)
    (hno : w.q.allows now skb.len = false) (hfit : Fits w.q skb.len) :
    ∃ w1 wk, step e refills w (.dequeue now) = some w1 ∧ w1.q.watchdog = some wk ∧ now < wk ∧
      ∀ evs' w2, AllSteps (step e refills) (fun w ev => Clocked w ev ∧ Before wk ev) w1 evs' →
        run (step e refills) w1 evs' = some w2 → w2.log = w.log ∧
        ∀ t, Clocked w2 (.dequeue t) → wk ≤ t →
          ∃ w3, step e refills w2 (.dequeue t) = some w3 ∧
            w3.log = w.log ++ [record t w2.q skb] := by
  have hI := inv_of_run hh.faithful hstart hclock hrun
  have htime : w.q.tC ≤ now := BitVec.le_trans hI.time hnow.1
  obtain ⟨w1, h1, hI1, hw1, hdog⟩ : ∃ w1, step e refills w (.dequeue now) = some w1 ∧
      Inv start w1 ∧ Waiting front skb w.q w.log w1 ∧
      w1.q.watchdog = some (now + maxS64 (-w.q.toks now skb.len) (-w.q.ptoks now skb.len)) :=
    waiting_of_throttled hh hI hnow hpeek hno
  have hwk := toNat_watchdog hI.bounded htime hnow.2 hfit hno
  generalize now + maxS64 (-w.q.toks now skb.len) (-w.q.ptoks now skb.len) = wk at hdog hwk
  -- the packet may leave at a time if and only if the watchdog has expired
  have hallows : ∀ t, w.q.tC ≤ t → t.toNat < 2 ^ 62 →
      (w.q.allows t skb.len = true ↔ wk ≤ t) := fun t ht hlt => by
    rw [allows_iff_wake hI.bounded ht hlt hfit, ← hwk, Int.ofNat_le, BitVec.le_def]
  refine ⟨w1, wk, h1, hdog, ?_, fun evs' w2 hq hrun' => ?_⟩
  · rw [← BitVec.not_le, ← hallows now htime hnow.2, hno]
    exact Bool.false_ne_true
  have hquiet : ∀ v ev, Inv start v → Waiting front skb w.q w.log v →
      Clocked v ev ∧ Before wk ev → Clocked v ev ∧ Quiet w.q skb.len ev := by
    rintro v ev hv hwv ⟨hc, hb⟩
    refine ⟨hc, ?_⟩
    cases ev with
    | enqueue t skb' => trivial
    | dequeue t =>
      have ht : w.q.tC ≤ t := hwv.same.tC ▸ BitVec.le_trans hv.time hc.1
      rw [Quiet, ← Bool.not_eq_true, hallows t ht hc.2, BitVec.not_le]
      exact hb
    | change t opt => exact hb
    | reset t => exact hb
  obtain ⟨hI2, hw2⟩ := hw1.run hh hquiet hI1 hq hrun'
  refine ⟨hw2.log, fun t ht hwkt => ⟨_, rfl, ?_⟩⟩
  have ht' : w.q.tC ≤ t := hw2.same.tC ▸ BitVec.le_trans hI2.time ht.1
  have hok : w2.q.allows t skb.len = true := by
    rw [allows_congr hw2.same, hallows t ht' ht.2]
    exact hwkt
  rw [tbfDequeue_sent hh hw2.front hok, ← hw2.log]
  rfl

/-- Packets arrive and the device asks for packets; nobody changes the token bucket. -/
def Traffic : Event → Prop
  | .enqueue _ _ => True
  | .dequeue _ => True
  | .change _ _ => False
  | .reset _ => False

instance : DecidablePred Traffic
  | .enqueue _ _ => isTrue trivial
  | .dequeue _ => isTrue trivial
  | .change _ _ => isFalse id
  | .reset _ => isFalse id

/-- **A packet that costs too much blocks the queue**, over a discipline that keeps at its front
what it has shown: after a dequeue that shows a packet whose price is more than the depth of the
bucket, nothing leaves by any arrivals and dequeues. -/
theorem blocked (hh : e.ops.Holds front) (hstart : start.toNat < 2 ^ 62)
    (hclock : AllSteps (step e refills) Clocked (World.start start inner) evs)
    (hrun : run (step e refills) (World.start start inner) evs = some w)
    (hpeek : (qdiscPeek e.ops now w.q.qdisc).2 = some skb)
    (hdeep : w.q.buffer < pschedL2tNs w.q.rate skb.len) {evs' : List Event} {w' : World σ}
    (htraffic : AllSteps (step e refills) (fun w ev => Clocked w ev ∧ Traffic ev) w
      (.dequeue now :: evs'))
    (hrun' : run (step e refills) w (.dequeue now :: evs') = some w') : w'.log = w.log := by
  have hI := inv_of_run hh.faithful hstart hclock hrun
  have hno : ∀ t, w.q.tC ≤ t → t.toNat < 2 ^ 62 → w.q.allows t skb.len = false := fun t ht hlt => by
    rw [← Bool.not_eq_true, allows_iff, toks_nonneg_iff hI.bounded ht hlt]
    exact fun h => BitVec.not_le.mpr hdeep h.1.1
  obtain ⟨w1, h1, hrun1⟩ := run_cons_some hrun'
  obtain ⟨⟨hnow, -⟩, hrest⟩ := htraffic
  obtain ⟨w1', h1', hI1, hw1, -⟩ : ∃ w1, step e refills w (.dequeue now) = some w1 ∧
      Inv start w1 ∧ Waiting front skb w.q w.log w1 ∧
      w1.q.watchdog = some (now + maxS64 (-w.q.toks now skb.len) (-w.q.ptoks now skb.len)) :=
    waiting_of_throttled hh hI hnow hpeek (hno now (BitVec.le_trans hI.time hnow.1) hnow.2)
  cases h1.symm.trans h1'
  have hquiet : ∀ v ev, Inv start v → Waiting front skb w.q w.log v →
      Clocked v ev ∧ Traffic ev → Clocked v ev ∧ Quiet w.q skb.len ev := by
    rintro v ev hv hwv ⟨hc, ht⟩
    refine ⟨hc, ?_⟩
    cases ev with
    | enqueue t skb' => trivial
    | dequeue t => exact hno t (hwv.same.tC ▸ BitVec.le_trans hv.time hc.1) hc.2
    | change t opt => exact ht
    | reset t => exact ht
  exact (hw1.run hh hquiet hI1 (hrest w1 h1) hrun1).2.log

end Exact

/-! ### A packet that waits, and one that waits for ever -/

/-- A packet of 1500 bytes arrives at an empty bucket of 2500 bytes, at a megabyte per second. -/
def onePacket : List Event := [.change 5 (plainOptions 1000000 2500), .enqueue 10 ⟨1, 1500⟩]

theorem onePacket_run :
    (run (step Env.plain false) (World.start 0 none) onePacket).isSome := by decide +kernel

/-- The packet is not sent at 1000000 ns; the device may ask again before the watchdog expires. -/
theorem throttled_leaves_onePacket :
    ∃ w w1 wk, run (step Env.plain false) (World.start 0 none) onePacket = some w ∧
      step Env.plain false w (.dequeue 1000000) = some w1 ∧ w1.q.watchdog = some wk ∧
      ∀ w2, AllSteps (step Env.plain false) (fun w ev => Clocked w ev ∧ Before wk ev) w1
          [.dequeue 1400000] → run (step Env.plain false) w1 [.dequeue 1400000] = some w2 →
        w2.log = w.log := by
  have hrun := (Option.some_get onePacket_run).symm
  have hpeek : (qdiscPeek bfifoOps 1000000 ((run (step Env.plain false) (World.start 0 none)
      onePacket).get onePacket_run).q.qdisc).2 = some ⟨1, 1500⟩ := by decide +kernel
  have hfit : Fits ((run (step Env.plain false) (World.start 0 none) onePacket).get onePacket_run).q
      1500 := ⟨by decide +kernel, fun h => absurd h (by decide +kernel)⟩
  obtain ⟨w1, wk, h1, hdog, -, hwait⟩ := throttled_leaves bfifoOps_holds (by decide)
    (by decide +kernel) hrun (by decide +kernel) hpeek (by decide +kernel) hfit
  exact ⟨_, w1, wk, hrun, h1, hdog, fun w2 hc hr => (hwait _ w2 hc hr).1⟩

/-- The burst is made smaller than a packet that has been let in. -/
def smallBurst : List Event := onePacket ++ [.change 20 (plainOptions 1000000 1000)]

theorem smallBurst_run :
    (run (step Env.plain false) (World.start 0 none) smallBurst).isSome := by decide +kernel

theorem blocked_smallBurst :
    ∃ w, run (step Env.plain false) (World.start 0 none) smallBurst = some w ∧
      ∀ w', run (step Env.plain false) w [.dequeue 1000000, .dequeue 1000000000000] = some w' →
        w'.log = w.log := by
  have hrun := (Option.some_get smallBurst_run).symm
  have hpeek : (qdiscPeek bfifoOps 1000000 ((run (step Env.plain false) (World.start 0 none)
      smallBurst).get smallBurst_run).q.qdisc).2 = some ⟨1, 1500⟩ := by decide +kernel
  refine ⟨_, hrun, fun w' hr => ?_⟩
  exact blocked bfifoOps_holds (by decide) (by decide +kernel) hrun hpeek (by decide +kernel)
    (by decide +kernel) hr

end DynBandwidth.Sched.TbfWake
