import Mathlib.Algebra.BigOperators.Group.List.Basic
import DynBandwidth.Sched.NetemRuns

/-! # The books of the emulator

As long as no packet stands for several segments, the counters of the emulator say what it holds,
and it holds no more packets than its limit, whatever is lost, duplicated, corrupted, reordered or
changed (`netem_counts`). Segments of a packet that was corrupted are counted twice, so that the
counter of packets does not return to zero. -/

namespace DynBandwidth.Sched.NetemBooks

open DynBandwidth.Lib.Bytes DynBandwidth.Lib.Runs DynBandwidth.Lib.TimeQueue
open DynBandwidth.Tbf.Uapi DynBandwidth.Tbf.Kernel
open DynBandwidth.Sched.Qdisc DynBandwidth.Sched.Netem DynBandwidth.Sched.NetemQueue
open DynBandwidth.Sched.NetemRuns
open DynBandwidth.Reorder.Header (U32 U64)

/-- The packets that are held. -/
def packets (s : NetemSched) : List Skb := (held s).map Stamped.skb

/-- The counters are right, and no more packets are held than the cap. -/
structure Booked (cap : ℕ) (s : NetemSched) : Prop where
  lanes : InLanes s
  counted : Counted (packets s) s.qlen s.backlog
  limit : s.data.limit.toNat ≤ cap
  length : (packets s).length ≤ cap

theorem bytesOf_perm {l l' : List Skb} (h : l.Perm l') : bytesOf l = bytesOf l' :=
  (h.map _).sum_eq

/-- A packet more is counted, wherever it is put. -/
theorem counted_of_perm {l l' : List Skb} {qlen backlog : U32} (h : Counted l qlen backlog)
    {skb : Skb} (hp : l'.Perm (skb :: l)) : Counted l' (qlen + 1) (backlog + skb.len) := by
  have hsnoc := h.snoc skb
  have hp : l'.Perm (l ++ [skb]) := hp.trans (List.perm_append_singleton skb l).symm
  exact ⟨by rw [hp.length_eq, hsnoc.qlen], by rw [bytesOf_perm hp, hsnoc.backlog]⟩

section Books
variable {e : Env} {now : U64} {cap : ℕ}

/-- **Placing a packet**: there is one more. -/
theorem packets_place {s s' : NetemSched} {skb : Skb} (h : InLanes s)
    (hp : netemPlace e now s skb = some s') : (packets s').Perm (skb :: packets s) ∧
      s'.qlen = s.qlen + 1 ∧ s'.backlog = s.backlog + skb.len ∧ s'.data.limit = s.data.limit := by
  rcases netemPlace_cases hp with ⟨rest, -, -, rfl⟩ | ⟨rest, delay, -, -, rfl⟩
  · exact ⟨List.Perm.refl _, rfl, rfl, rfl⟩
  · have ht := (tfifoEnqueue_spec (s := { s with
      data := { s.data with rest := rest, counter := s.data.counter + 1 }
      backlog := s.backlog + skb.len }) h ⟨skb, s.timeToSend now delay skb.len⟩).2
    rw [tfifoEnqueue_frame] at ht ⊢
    refine ⟨?_, rfl, rfl, rfl⟩
    unfold packets held
    rw [ht]
    refine ((((insertLast_perm _ _).append_left s.q).trans List.perm_middle).map _)

theorem Booked.place (hcap : cap < 2 ^ 32) {s s' : NetemSched} {skb : Skb} (h : Booked cap s)
    (hroom : ¬ s.data.limit ≤ s.qlen) (hp : netemPlace e now s skb = some s') : Booked cap s' := by
  obtain ⟨hperm, hqlen, hbacklog, hlimit⟩ := packets_place h.lanes hp
  refine ⟨inLanes_place h.lanes hp, ?_, by rw [hlimit]; exact h.limit, ?_⟩
  · rw [hqlen, hbacklog]
    exact counted_of_perm h.counted hperm
  · -- the counter of packets, which is compared with the limit, is the number of packets
    have hlen := h.length
    have hq : s.qlen.toNat = (packets s).length := by
      rw [h.counted.qlen, BitVec.toNat_ofNat, Nat.mod_eq_of_lt (by omega)]
    have hlt : s.qlen.toNat < s.data.limit.toNat := BitVec.not_le.mp hroom
    have hcap := h.limit
    rw [hperm.length_eq, List.length_cons]
    omega

theorem kept_booked (e : Env) (now : U64) (hcap : cap < 2 ^ 32) :
    Kept e now (fun skb => e.gso.isGso skb = false) (Booked cap) where
  parts _ h hgso := by
    rw [h] at hgso
    cases hgso
  quiet := by
    rintro s s' ⟨rest, drops, -, rfl⟩ h
    exact ⟨h.lanes, h.counted, h.limit, h.length⟩
  duplicate _ h := ⟨h.lanes, h.counted, h.limit, h.length⟩
  place _ h hroom hp := h.place hcap hroom hp
  count _ h hgso _ := by
    rw [h] at hgso
    cases hgso

theorem Booked.dequeue {s s' : NetemSched} {r : Option Skb} (h : Booked cap s)
    (hd : netemDequeue e now s = some (s', r)) : Booked cap s' := by
  have hl := inLanes_dequeue h.lanes hd
  have hlen := h.length
  have hc := h.counted
  rcases netemDequeue_cases h.lanes hd with ⟨x, q, hq, -, rfl⟩ | ⟨-, -, -, rfl⟩ |
    ⟨x, lane, data, hq, -, -, ⟨draws, slot, rfl⟩, ht, -, rfl⟩ | ⟨x, l, data, -, -, hslot, -, -, rfl⟩
  · unfold packets held at hlen hc
    rw [hq, List.cons_append, List.map_cons] at hlen hc
    exact ⟨hl, hc.tail, h.limit, (Nat.le_succ _).trans hlen⟩
  · exact h
  · have hq' : (netemEraseHead s lane).q = [] := by cases lane <;> exact hq
    unfold packets held at hlen hc
    rw [hq, List.nil_append, ht, List.map_cons] at hlen hc
    refine ⟨hl, ?_, h.limit, ?_⟩
    · unfold packets held
      dsimp only
      rw [hq']
      exact hc.tail
    · unfold packets held
      dsimp only
      rw [hq']
      exact (Nat.le_succ _).trans hlen
  · obtain ⟨draws, slot, rfl⟩ := slotFrom_slotBefore hslot
    exact ⟨hl, h.counted, h.limit, h.length⟩

/-- A packet that arrives has no segments, and no limit that is configured is above the cap. -/
def Modest (e : Env) (cap : ℕ) (w : World) : Event → Prop
  | .enqueue _ skb => e.gso.isGso skb = false
  | .change now opt => (netemConfigure e now w.s opt).1.data.limit.toNat ≤ cap
  | _ => True

instance (w : World) : (ev : Event) → Decidable (Modest e cap w ev)
  | .enqueue _ skb => inferInstanceAs (Decidable (e.gso.isGso skb = false))
  | .change now opt =>
    inferInstanceAs (Decidable ((netemConfigure e now w.s opt).1.data.limit.toNat ≤ cap))
  | .dequeue _ | .reset _ => isTrue trivial

theorem Booked.step (hcap : cap < 2 ^ 32) {w w' : World} {ev : Event} (h : Booked cap w.s)
    (hev : Modest e cap w ev) (hs : step e w ev = some w') : Booked cap w'.s := by
  cases ev with
  | enqueue now skb =>
    obtain ⟨⟨s', ret⟩, he, rfl⟩ := Option.map_eq_some_iff.mp hs
    exact netemEnqueue_keeps (kept_booked e now hcap) 4 hev h he
  | dequeue now =>
    obtain ⟨⟨s', r⟩, hd, rfl⟩ := Option.map_eq_some_iff.mp hs
    exact h.dequeue hd
  | change now opt =>
    cases hs
    rw [Modest] at hev
    dsimp only
    obtain ⟨data, hdata⟩ := netemConfigure_frame e now w.s opt
    rw [hdata] at hev ⊢
    exact ⟨h.lanes, h.counted, hev, h.length⟩
  | reset now =>
    cases hs
    have ht : packets (netemReset w.s) = [] := by
      unfold packets held
      rw [(inLanes_empty rfl rfl).2]
      rfl
    refine ⟨(inLanes_empty rfl rfl).1, ?_, h.limit, ?_⟩
    · rw [ht]
      exact counted_nil
    · rw [ht]
      exact Nat.zero_le cap

/-- **The books of the emulator**: in every run without packets that have segments, in which no
limit is above the cap, the counters say which packets are held, and these are no more than the cap.
-/
theorem netem_counts (hcap : cap < 2 ^ 32) {start : U64} {evs : List Event} {w : World}
    (hmodest : AllSteps (NetemRuns.step e) (Modest e cap) (World.start start) evs)
    (hrun : run (NetemRuns.step e) (World.start start) evs = some w) :
    Counted (packets w.s) w.s.qlen w.s.backlog ∧ (packets w.s).length ≤ cap := by
  have hnil : packets netemZero = [] := by
    unfold packets held
    rw [(inLanes_empty rfl rfl).2]
    rfl
  have hstart : Booked cap netemZero :=
    ⟨(inLanes_empty rfl rfl).1, hnil ▸ counted_nil, Nat.zero_le cap, hnil ▸ Nat.zero_le cap⟩
  have h := run_keeps_of_allSteps (I := fun w => Booked cap w.s)
    (fun _ _ _ h hev hs => Booked.step hcap h hev hs) hstart hmodest hrun
  exact ⟨h.counted, h.length⟩

end Books

theorem netem_counts_overtaking :
    ∃ w, run (step Env.plain) (World.start 0) (overtaking.take 4) = some w ∧
      Counted (packets w.s) w.s.qlen w.s.backlog ∧ (packets w.s).length ≤ 100 := by
  have hrun := (Option.some_get (overtaking_run 4)).symm
  exact ⟨_, hrun, netem_counts (by decide) (by decide +kernel) hrun⟩

/-- A kernel in which long packets have three segments. -/
def segmenting : Env :=
  { Env.plain with
    gso := ⟨fun skb => 1500 < skb.len, fun _ _ => false, fun skb =>
      [⟨skb.id, 1000⟩, ⟨skb.id + 1, 1000⟩, ⟨skb.id + 2, 1000⟩]⟩ }

/-- Every packet is corrupted, one with three segments arrives, and they leave. -/
def corrupting : List Event :=
  [.change 0 (TcNetemQopt.toBytes ⟨0, 100, 0, 0, 0, 0⟩ ++
      [12, 0, 4, 0, 255, 255, 255, 255, 0, 0, 0, 0]),
    .enqueue 0 ⟨1, 3000⟩, .dequeue 0, .dequeue 0, .dequeue 0]

-- the two segments behind the first one are counted twice, and nothing is held
example : (run (step segmenting) (World.start 0) corrupting).map
    (fun w => (w.left.length, w.s.tQueue, w.s.qlen)) = some (3, [], 2) := by decide +kernel

end DynBandwidth.Sched.NetemBooks
