import DynBandwidth.Lib.Runs
import DynBandwidth.Sched.NetemQueue

/-! # Runs of the emulator

In every run the list and the tree stay the lanes of one queue, so that a dequeue finds a packet
with the least time to send, if it has come (`serves_earliest`).

An emulator that does nothing but delay, which is what the drivers configure it for, is a delay
line: the packets leave in the order of the times at which they arrived plus the latency at that
time, none of them early, and those of the same time in the order in which they arrived
(`delay_line`). When the latency is lowered, packets may overtake others. -/

namespace DynBandwidth.Sched.NetemRuns

open DynBandwidth.Lib.Bytes DynBandwidth.Lib.RbTree DynBandwidth.Lib.Runs DynBandwidth.Lib.Signed
open DynBandwidth.Lib.TimeQueue
open DynBandwidth.Tbf.Uapi DynBandwidth.Tbf.Kernel
open DynBandwidth.Sched.Qdisc DynBandwidth.Sched.Netem DynBandwidth.Sched.NetemQueue
open DynBandwidth.Reorder.Header (U32 U64)

/-! ### Dequeue -/

/-- Parameters that differ by random numbers and the slot only. -/
def SlotFrom (q q' : Data) : Prop :=
  ∃ draws slot, q' = { q with rest := { q.rest with draws := draws, slot := slot } }

theorem SlotFrom.refl (q : Data) : SlotFrom q q := ⟨q.rest.draws, q.rest.slot, rfl⟩

theorem SlotFrom.trans {q q' q'' : Data} (h : SlotFrom q q') (h' : SlotFrom q' q'') :
    SlotFrom q q'' := by
  obtain ⟨draws, slot, rfl⟩ := h
  obtain ⟨draws', slot', rfl⟩ := h'
  exact ⟨draws', slot', rfl⟩

section Dequeue
variable {e : Env} {now : U64} {s s' : NetemSched}

theorem slotFrom_getSlotNext {q q' : Data} (h : getSlotNext e now q = some q') : SlotFrom q q' := by
  obtain ⟨r, -, rfl⟩ := Option.map_eq_some_iff.mp h
  exact ⟨_, _, rfl⟩

theorem slotFrom_slotBefore {q q' : Data} {t : U64} (h : slotBefore e now q t = some q') :
    SlotFrom q q' := by
  unfold slotBefore at h
  split_ifs at h
  · exact slotFrom_getSlotNext h
  · cases h
    exact SlotFrom.refl q

theorem slotFrom_slotAfter {q q' : Data} {len : U32} (h : slotAfter e now q len = some q') :
    SlotFrom q q' := by
  unfold slotAfter at h
  dsimp only at h
  split_ifs at h
  · cases h
    exact SlotFrom.refl q
  · exact SlotFrom.trans ⟨_, _, rfl⟩ (slotFrom_getSlotNext h)
  · cases h
    exact ⟨_, _, rfl⟩

/-- **What a dequeue can do**: a packet that was put at the front leaves, there is no packet, the
front of the queue leaves because its time has come, or it waits. -/
theorem netemDequeue_cases (h : InLanes s) {r : Option Skb}
    (hd : netemDequeue e now s = some (s', r)) :
    (∃ x q, s.q = x :: q ∧ r = some x.skb ∧
      s' = { s with q := q, qlen := s.qlen - 1, backlog := s.backlog - x.skb.len }) ∨
    (s.q = [] ∧ timed s = [] ∧ r = none ∧ s' = s) ∨
    (∃ x lane data, s.q = [] ∧ r = some x.skb ∧ x.timeToSend ≤ now ∧ SlotFrom s.data data ∧
      timed s = x :: timed (netemEraseHead s lane) ∧ InLanes (netemEraseHead s lane) ∧
      s' = { netemEraseHead s lane with
        data := data, qlen := s.qlen - 1, backlog := s.backlog - x.skb.len }) ∨
    (∃ x l data, s.q = [] ∧ r = none ∧ slotBefore e now s.data x.timeToSend = some data ∧
      timed s = x :: l ∧
      ¬ (x.timeToSend ≤ now ∧ data.rest.slot.slotNext ≤ now) ∧
      s' = { s with
        data := data, watchdog := some (maxU64 x.timeToSend data.rest.slot.slotNext) }) := by
  unfold netemDequeue at hd
  cases hq : s.q with
  | cons x q =>
    rw [hq] at hd
    cases hd
    exact Or.inl ⟨x, q, rfl, rfl, rfl⟩
  | nil =>
    rw [hq] at hd
    refine Or.inr ?_
    rcases netemPeek_spec h with ⟨hp, ht⟩ | ⟨lane, x, hp, ht, hl⟩
    · rw [hp] at hd
      cases hd
      exact Or.inl ⟨rfl, ht, rfl, rfl⟩
    · rw [hp] at hd
      refine Or.inr ?_
      obtain ⟨data, hdata, hd⟩ := Option.bind_eq_some_iff.mp hd
      by_cases hdue : x.timeToSend ≤ now ∧ data.rest.slot.slotNext ≤ now
      · rw [if_pos hdue] at hd
        obtain ⟨data', hdata', hd⟩ := Option.bind_eq_some_iff.mp hd
        cases hd
        have hslot := (slotFrom_slotBefore hdata).trans (slotFrom_slotAfter hdata')
        exact Or.inl ⟨x, lane, data', rfl, rfl, hdue.1, hslot, ht, hl, rfl⟩
      · rw [if_neg hdue] at hd
        cases hd
        exact Or.inr ⟨x, _, data, rfl, rfl, hdata, ht, hdue, rfl⟩

end Dequeue

/-! ### Runs -/

/-- An emulator, the time of the last event, the packets that arrived, those that were taken in the
order in which they are due, and those that left with the times at which they did so. -/
structure World where
  s : NetemSched
  clock : U64
  arrived : List Skb
  line : List Stamped
  left : List (Skb × U64)

/-- The line when a packet arrives. -/
def enterLine (now latency : U64) (skb : Skb) (ret : Xmit) (line : List Stamped) : List Stamped :=
  if ret = .success then insertLast tts ⟨skb, now + latency⟩ line else line

/-- What a dequeue adds to the packets that left. -/
def leaves (now : U64) (r : Option Skb) : List (Skb × U64) := (r.map fun skb => (skb, now)).toList

/-- An event. A reset drops what has not left. -/
def step (e : Env) (w : World) : Event → Option World
  | .enqueue now skb =>
    (netemEnqueue e now 4 w.s skb).map fun r =>
      { w with
        s := r.1
        clock := now
        arrived := w.arrived ++ [skb]
        line := enterLine now w.s.data.latency skb r.2 w.line }
  | .dequeue now =>
    (netemDequeue e now w.s).map fun r =>
      { w with s := r.1, clock := now, left := w.left ++ leaves now r.2 }
  | .change now opt => some { w with s := (netemConfigure e now w.s opt).1, clock := now }
  | .reset now =>
    some { w with s := netemReset w.s, clock := now, line := w.line.take w.left.length }

/-- A new emulator. -/
def World.start (now : U64) : World := ⟨netemZero, now, [], [], []⟩

/-! ### The lanes -/

section Lanes
variable {e : Env} {now : U64}

theorem inLanes_empty {s : NetemSched} (hq : s.tQueue = []) (ht : s.tRoot = .nil) :
    InLanes s ∧ timed s = [] := by
  unfold InLanes timed
  rw [hq, ht]
  exact ⟨lanes_nil, inOrder_nil_left⟩

theorem inLanes_place {s s' : NetemSched} {skb : Skb} (h : InLanes s)
    (hp : netemPlace e now s skb = some s') : InLanes s' := by
  rcases netemPlace_cases hp with ⟨rest, -, -, rfl⟩ | ⟨rest, delay, -, -, rfl⟩
  · exact h
  · exact (tfifoEnqueue_spec (s := { s with
      data := { s.data with rest := rest, counter := s.data.counter + 1 }
      backlog := s.backlog + skb.len }) h _).1

theorem kept_inLanes (e : Env) (now : U64) : Kept e now (fun _ => True) InLanes where
  parts _ _ _ _ _ := ⟨trivial, trivial⟩
  quiet := by
    rintro s s' ⟨rest, drops, -, rfl⟩ h
    exact h
  duplicate _ h := h
  place _ h _ hp := inLanes_place h hp
  count _ _ _ h := h

theorem inLanes_dequeue {s s' : NetemSched} {r : Option Skb} (h : InLanes s)
    (hd : netemDequeue e now s = some (s', r)) : InLanes s' := by
  rcases netemDequeue_cases h hd with ⟨x, q, -, -, rfl⟩ | ⟨-, -, -, rfl⟩ |
    ⟨x, lane, data, -, -, -, -, -, hl, rfl⟩ | ⟨x, l, data, -, -, -, -, -, rfl⟩
  · exact h
  · exact h
  · exact hl
  · exact h

theorem netemConfigure_frame (e : Env) (now : U64) (s : NetemSched) (opt : List Byte) :
    ∃ data, (netemConfigure e now s opt).1 = { s with data := data } := by
  unfold netemConfigure
  split
  · exact ⟨_, rfl⟩
  · exact ⟨_, rfl⟩

theorem inLanes_step {w w' : World} {ev : Event} (h : InLanes w.s) (hs : step e w ev = some w') :
    InLanes w'.s := by
  cases ev with
  | enqueue now skb =>
    obtain ⟨⟨s', ret⟩, he, rfl⟩ := Option.map_eq_some_iff.mp hs
    exact netemEnqueue_keeps (kept_inLanes e now) 4 trivial h he
  | dequeue now =>
    obtain ⟨⟨s', r⟩, hd, rfl⟩ := Option.map_eq_some_iff.mp hs
    exact inLanes_dequeue h hd
  | change now opt =>
    cases hs
    obtain ⟨data, hdata⟩ := netemConfigure_frame e now w.s opt
    rw [hdata]
    exact h
  | reset now =>
    cases hs
    exact (inLanes_empty rfl rfl).1

theorem inLanes_of_run {start : U64} {evs : List Event} {w : World}
    (hrun : run (step e) (World.start start) evs = some w) : InLanes w.s :=
  run_keeps (I := fun w => InLanes w.s) (fun _ _ _ => inLanes_step) (inLanes_empty rfl rfl).1 hrun

end Lanes

/-- Two packets, the second one of which arrives when the latency is lower. -/
def overtaking : List Event :=
  [.change 0 (TcNetemQopt.toBytes ⟨1000, 100, 0, 0, 0, 0⟩), .enqueue 0 ⟨1, 1500⟩,
    .change 10 (TcNetemQopt.toBytes ⟨100, 100, 0, 0, 0, 0⟩), .enqueue 20 ⟨2, 1500⟩,
    .dequeue 7000, .dequeue 64000]

theorem overtaking_run (n : Fin 7) :
    (run (step Env.plain) (World.start 0) (overtaking.take n)).isSome := by
  revert n
  decide +kernel

/-- Parameters with which packets are delayed by the latency, or lost, and nothing else. -/
structure Plain (q : Data) : Prop where
  duplicate : q.duplicate = 0
  corrupt : q.corrupt = 0
  gap : q.gap = 0
  jitter : q.jitter.setWidth 32 = 0
  rate : q.rate = 0

instance (q : Data) : Decidable (Plain q) :=
  decidable_of_iff (q.duplicate = 0 ∧ q.corrupt = 0 ∧ q.gap = 0 ∧ q.jitter.setWidth 32 = 0 ∧
    q.rate = 0) ⟨fun ⟨hd, hc, hg, hj, hr⟩ => ⟨hd, hc, hg, hj, hr⟩,
      fun h => ⟨h.duplicate, h.corrupt, h.gap, h.jitter, h.rate⟩⟩

/-- Without duplicates and corruption, a packet is not taken, or it is placed. -/
theorem netemEnqueue_once {e : Env} {now : U64} {n : ℕ} {s s' : NetemSched} {skb : Skb} {ret : Xmit}
    (hdup : s.data.duplicate = 0) (hcor : s.data.corrupt = 0)
    (h : netemEnqueue e now (n + 1) s skb = some (s', ret)) :
    (Quiet s s' ∧ ret ≠ .success) ∨
      ∃ s1, Quiet s s1 ∧ ¬ s1.data.limit ≤ s1.qlen ∧ netemPlace e now s1 skb = some s' ∧
        ret = .success := by
  have hquiet := quiet_netemCount e s skb
  have hnodup := dup_netemCount e hdup skb
  rw [netemEnqueue] at h
  generalize netemCount e s skb = r at h hquiet hnodup
  obtain ⟨s1, dup, lost⟩ := r
  dsimp only at h hquiet hnodup
  subst hnodup
  cases lost with
  | true =>
    cases h
    exact Or.inl ⟨hquiet.trans (quiet_drop s1), by decide⟩
  | false =>
    have hcor1 : s1.data.corrupt = 0 := by
      obtain ⟨rest, drops, -, rfl⟩ := hquiet
      exact hcor
    have hnocor := netemCorrupt_zero e hcor1 skb
    simp only [Bool.not_false, Bool.and_true, Bool.false_eq_true, if_false, netemClone,
      Bool.false_and, Option.bind_eq_bind, Option.bind_some, hnocor] at h
    by_cases hlimit : s1.data.limit ≤ s1.qlen
    · rw [if_pos hlimit] at h
      cases h
      exact Or.inl ⟨hquiet.trans (quiet_drop s1), by decide⟩
    · rw [if_neg hlimit] at h
      obtain ⟨s2, h2, h⟩ := Option.bind_eq_some_iff.mp h
      cases h
      refine Or.inr ⟨s1, hquiet, hlimit, ?_, rfl⟩
      rw [h2, BitVec.ofNat_eq_ofNat, BitVec.add_zero]

/-- **An arrival on the line**: a packet that is taken goes to the place of its time. -/
theorem plain_enqueue {e : Env} {now : U64} {n : ℕ} {s s' : NetemSched} {skb : Skb} {ret : Xmit}
    (hl : InLanes s) (hq : s.q = []) (hp : Plain s.data)
    (h : netemEnqueue e now (n + 1) s skb = some (s', ret)) :
    s'.q = [] ∧ timed s' = enterLine now s.data.latency skb ret (timed s) := by
  rcases netemEnqueue_once hp.duplicate hp.corrupt h with ⟨⟨rest, drops, -, rfl⟩, hret⟩ |
    ⟨s1, ⟨rest, drops, -, rfl⟩, -, hplace, rfl⟩
  · exact ⟨hq, (if_neg hret).symm⟩
  · rcases netemPlace_cases hplace with ⟨rest', -, hgap, -⟩ | ⟨rest', delay, -, hdelay, rfl⟩
    · exact absurd hp.gap hgap
    · rw [hdelay hp.jitter, NetemSched.timeToSend, if_pos hp.rate, tfifoEnqueue_frame]
      refine ⟨hq, ?_⟩
      exact (tfifoEnqueue_spec (s := { s with
        data := { s.data with rest := rest', counter := s.data.counter + 1 }
        backlog := s.backlog + skb.len, drops := drops }) hl _).2

/-- An arrival leaves the parameters as they are, but for the random numbers and the counter. -/
theorem Plain.enqueue {e : Env} {now : U64} {n : ℕ} {s s' : NetemSched} {skb : Skb} {ret : Xmit}
    (hp : Plain s.data) (h : netemEnqueue e now (n + 1) s skb = some (s', ret)) :
    Plain s'.data ∧ s'.data.latency = s.data.latency := by
  rcases netemEnqueue_once hp.duplicate hp.corrupt h with ⟨⟨rest, drops, -, rfl⟩, -⟩ |
    ⟨s1, ⟨rest, drops, -, rfl⟩, -, hplace, -⟩
  · exact ⟨⟨hp.duplicate, hp.corrupt, hp.gap, hp.jitter, hp.rate⟩, rfl⟩
  · rcases netemPlace_cases hplace with ⟨rest', -, -, rfl⟩ | ⟨rest', delay, -, -, rfl⟩
    · exact ⟨⟨hp.duplicate, hp.corrupt, hp.gap, hp.jitter, hp.rate⟩, rfl⟩
    · rw [tfifoEnqueue_frame]
      exact ⟨⟨hp.duplicate, hp.corrupt, hp.gap, hp.jitter, hp.rate⟩, rfl⟩

/-- The packet left, and not before its time. -/
def Departed (x : Stamped) (y : Skb × U64) : Prop := x.skb = y.1 ∧ x.timeToSend ≤ y.2

/-- **A dequeue moves packets**: from the front of those that are held to those that left. -/
theorem dequeue_moves {e : Env} {now : U64} {s s' : NetemSched} {r : Option Skb} (h : InLanes s)
    (hq : s.q = []) (hd : netemDequeue e now s = some (s', r)) :
    s'.q = [] ∧ ∃ moved, timed s = moved ++ timed s' ∧
      List.Forall₂ Departed moved (leaves now r) := by
  rcases netemDequeue_cases h hd with ⟨x, q, hx, -, -⟩ | ⟨-, -, rfl, rfl⟩ |
    ⟨x, lane, data, -, rfl, hdue, -, ht, -, rfl⟩ | ⟨x, l, data, -, rfl, -, -, -, rfl⟩
  · rw [hq] at hx
    cases hx
  · exact ⟨hq, [], rfl, List.Forall₂.nil⟩
  · have hfront : (netemEraseHead s lane).q = s.q := by cases lane <;> rfl
    exact ⟨hfront.trans hq, [x], ht, List.Forall₂.cons ⟨rfl, hdue⟩ List.Forall₂.nil⟩
  · exact ⟨hq, [], rfl, List.Forall₂.nil⟩

theorem clock_leaves {clock now : U64} {left : List (Skb × U64)} {r : Option Skb}
    (hc : clock ≤ now) (h : ∀ y ∈ left, y.2 ≤ clock) : ∀ y ∈ left ++ leaves now r, y.2 ≤ now := by
  intro y hy
  rcases List.mem_append.mp hy with hy | hy
  · exact BitVec.le_trans (h y hy) hc
  · cases r with
    | none => cases hy
    | some skb =>
      rw [List.mem_singleton.mp hy]
      exact BitVec.le_refl now

/-- **The delay line**: the packets that left, and those that are held, are the line. -/
structure OnLine (w : World) : Prop where
  lanes : InLanes w.s
  front : w.s.q = []
  clock : ∀ y ∈ w.left, y.2 ≤ w.clock
  sorted : Sorted tts w.line
  line : ∃ out, w.line = out ++ timed w.s ∧ List.Forall₂ Departed out w.left

/-- The clock does not go back; when a packet arrives, the emulator does nothing but delay, and the
time at which the packet is due has 64 bits. -/
def Steady (w : World) (ev : Event) : Prop :=
  w.clock ≤ ev.now ∧
    match ev with
    | .enqueue now _ => Plain w.s.data ∧ now.toNat + w.s.data.latency.toNat < 2 ^ 64
    | _ => True

instance (w : World) : (ev : Event) → Decidable (Steady w ev)
  | .enqueue now _ => inferInstanceAs (Decidable
      (_ ∧ Plain w.s.data ∧ now.toNat + w.s.data.latency.toNat < 2 ^ 64))
  | .dequeue _ | .change _ _ | .reset _ => inferInstanceAs (Decidable (_ ∧ True))

section Line
variable {e : Env} {w w' : World}

theorem onLine_start (start : U64) : OnLine (World.start start) where
  lanes := (inLanes_empty rfl rfl).1
  front := rfl
  clock := by rintro y ⟨⟩
  sorted := List.Pairwise.nil
  line := ⟨[], (inLanes_empty rfl rfl).2.symm, List.Forall₂.nil⟩

/-- What has left is not later than the clock. -/
theorem le_of_departed {clock : U64} {out : List Stamped} {left : List (Skb × U64)}
    (h : List.Forall₂ Departed out left) (hclock : ∀ y ∈ left, y.2 ≤ clock) :
    ∀ x ∈ out, x.timeToSend ≤ clock := by
  induction h with
  | nil => rintro x ⟨⟩
  | cons hd _ ih =>
    intro x hx
    rcases List.mem_cons.mp hx with rfl | hx
    · exact BitVec.le_trans hd.2 (hclock _ List.mem_cons_self)
    · exact ih (fun y hy => hclock y (List.mem_cons_of_mem _ hy)) x hx

/-- A packet enters the line behind all that is due by now. -/
theorem enterLine_behind {now latency : U64} {skb : Skb} {ret : Xmit} {l l' : List Stamped}
    (hl : ∀ x ∈ l, x.timeToSend ≤ now) (hlt : now.toNat + latency.toNat < 2 ^ 64) :
    enterLine now latency skb ret (l ++ l') = l ++ enterLine now latency skb ret l' := by
  unfold enterLine
  split_ifs
  · refine insertLast_behind fun x hx => ?_
    have hx : x.timeToSend.toNat ≤ now.toNat := hl x hx
    show x.timeToSend.toNat ≤ (now + latency).toNat
    rw [BitVec.toNat_add, Nat.mod_eq_of_lt hlt]
    omega
  · rfl

theorem sorted_enterLine {now latency : U64} {skb : Skb} {ret : Xmit} {l : List Stamped}
    (h : Sorted tts l) : Sorted tts (enterLine now latency skb ret l) := by
  unfold enterLine
  split_ifs
  · exact h.insertLast _
  · exact h

theorem OnLine.enqueue (h : OnLine w) {now : U64} {skb : Skb} {s' : NetemSched} {ret : Xmit}
    (hc : w.clock ≤ now) (hp : Plain w.s.data)
    (hlt : now.toNat + w.s.data.latency.toNat < 2 ^ 64) (hl : InLanes s')
    (he : netemEnqueue e now 4 w.s skb = some (s', ret)) :
    OnLine { w with
      s := s'
      clock := now
      arrived := w.arrived ++ [skb]
      line := enterLine now w.s.data.latency skb ret w.line } := by
  obtain ⟨hq, ht⟩ := plain_enqueue h.lanes h.front hp he
  obtain ⟨out, hline, hout⟩ := h.line
  have hdue : ∀ x ∈ out, x.timeToSend ≤ now := fun x hx =>
    BitVec.le_trans (le_of_departed hout h.clock x hx) hc
  refine ⟨hl, hq, fun y hy => BitVec.le_trans (h.clock y hy) hc, sorted_enterLine h.sorted, out,
    ?_, hout⟩
  dsimp only
  rw [ht, hline, enterLine_behind hdue hlt]

theorem OnLine.dequeue (h : OnLine w) {now : U64} {s' : NetemSched} {r : Option Skb}
    (hc : w.clock ≤ now) (hd : netemDequeue e now w.s = some (s', r)) :
    OnLine { w with s := s', clock := now, left := w.left ++ leaves now r } := by
  obtain ⟨out, hline, hout⟩ := h.line
  obtain ⟨hfront, moved, ht, hmoved⟩ := dequeue_moves h.lanes h.front hd
  refine ⟨inLanes_dequeue h.lanes hd, hfront, clock_leaves hc h.clock, h.sorted, out ++ moved, ?_,
    List.rel_append hout hmoved⟩
  rw [hline, ht, List.append_assoc]

theorem OnLine.step {ev : Event} (h : OnLine w) (hev : Steady w ev)
    (hs : step e w ev = some w') : OnLine w' := by
  have hl := inLanes_step h.lanes hs
  cases ev with
  | enqueue now skb =>
    obtain ⟨⟨s', ret⟩, he, rfl⟩ := Option.map_eq_some_iff.mp hs
    exact h.enqueue hev.1 hev.2.1 hev.2.2 hl he
  | dequeue now =>
    obtain ⟨⟨s', r⟩, hd, rfl⟩ := Option.map_eq_some_iff.mp hs
    exact h.dequeue hev.1 hd
  | change now opt =>
    cases hs
    obtain ⟨data, hdata⟩ := netemConfigure_frame e now w.s opt
    rw [hdata] at hl ⊢
    exact ⟨hl, h.front, fun y hy => BitVec.le_trans (h.clock y hy) hev.1, h.sorted, h.line⟩
  | reset now =>
    cases hs
    obtain ⟨out, hline, hout⟩ := h.line
    refine ⟨hl, rfl, fun y hy => BitVec.le_trans (h.clock y hy) hev.1,
      h.sorted.sublist (List.take_sublist _ _), out, ?_, hout⟩
    have ht : timed (netemReset w.s) = [] := (inLanes_empty rfl rfl).2
    rw [hline, ← hout.length_eq, List.take_left, ht, List.append_nil]

/-- **The emulator is a delay line**: in every run in which it does nothing but delay, however the
latency is changed, the packets that were taken, in the order of the times at which they are due,
are the packets that left, in this order and none before its time, and then those that are held. A
reset drops what is held. -/
theorem delay_line {start : U64} {evs : List Event}
    (hsteady : AllSteps (NetemRuns.step e) Steady (World.start start) evs)
    (hrun : run (NetemRuns.step e) (World.start start) evs = some w) :
    Sorted tts w.line ∧ ∃ out, w.line = out ++ timed w.s ∧ List.Forall₂ Departed out w.left :=
  have h := run_keeps_of_allSteps (fun _ _ _ h hev hs => OnLine.step h hev hs) (onLine_start start)
    hsteady hrun
  ⟨h.sorted, h.line⟩

end Line

theorem delay_line_overtaking :
    ∃ w, run (step Env.plain) (World.start 0) overtaking = some w ∧
      w.left = [(⟨2, 1500⟩, 7000), (⟨1, 1500⟩, 64000)] ∧ Sorted tts w.line ∧
      ∃ out, w.line = out ++ timed w.s ∧ List.Forall₂ Departed out w.left := by
  have hrun := (Option.some_get (overtaking_run 6)).symm
  exact ⟨_, hrun, by decide +kernel, delay_line (by decide +kernel) hrun⟩

end DynBandwidth.Sched.NetemRuns
