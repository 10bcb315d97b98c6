import DynBandwidth.Lib.TimeQueue
import DynBandwidth.Sched.Netem

/-! # The queue of the emulator

The list and the tree of the emulator are two lanes of one queue in the order of the times to send
(`timed`): `tfifo_enqueue` puts a packet behind all packets that are not later
(`tfifoEnqueue_spec`), and `netem_peek` and `netem_erase_head` find and remove its front
(`netemPeek_spec`). The packets that are put at the front to be reordered leave before it (`held`).

`netem_enqueue` is a tree of calls that draw random numbers, drop packets, and place packets in the
queue. What these three keep is kept by the whole (`netemEnqueue_keeps`). -/

namespace DynBandwidth.Sched.NetemQueue

open DynBandwidth.Lib.RbTree DynBandwidth.Lib.TimeQueue
open DynBandwidth.Sched.Qdisc DynBandwidth.Sched.Netem
open DynBandwidth.Reorder.Header (U32 U64)

/-! ### The two lanes -/

/-- The time to send as a number. -/
def tts (x : Stamped) : ℕ := x.timeToSend.toNat

/-- The packets in the order of their times. -/
def timed (s : NetemSched) : List Stamped := inOrder tts s.tQueue s.tRoot.toList

/-- All packets, in the order in which they are to leave. -/
def held (s : NetemSched) : List Stamped := s.q ++ timed s

/-- The list and the tree are the lanes of one queue. -/
def InLanes (s : NetemSched) : Prop := Lanes tts s.tQueue s.tRoot.toList

theorem sorted_timed {s : NetemSched} (h : InLanes s) : Sorted tts (timed s) :=
  sorted_inOrder h.sorted h.sortedTree

/-- The tree puts a packet behind all packets that are not later. -/
theorem toList_upsert {t : RbNode Stamped} (h : Sorted tts t.toList) (x : Stamped) :
    (t.upsert (fun y => x.timeToSend < y.timeToSend) (fun y => y.timeToSend ≤ x.timeToSend) x
      id).1.toList = insertLast tts x t.toList := by
  rcases upsert_cases (fun y : Stamped => decide (x.timeToSend < y.timeToSend))
    (fun y => decide (y.timeToSend ≤ x.timeToSend)) x id t with
    ⟨l, r, ht, hins, -, hl, hr⟩ | ⟨l, y, r, -, -, -, hlt, hgt⟩
  · rw [hins, ht, insertLast_append]
    · intro y hy
      rw [ht] at h
      obtain ⟨z, hz⟩ : ∃ z, l.getLast? = some z :=
        ⟨_, List.getLast?_eq_some_getLast (List.ne_nil_of_mem hy)⟩
      exact (Sorted.le_getLast (List.pairwise_append.mp h).1 hz y hy).trans
        (of_decide_eq_true (hl z hz))
    · intro y hy
      exact of_decide_eq_true (hr y hy)
  · have hlt' : ¬ x.timeToSend < y.timeToSend := of_decide_eq_false hlt
    exact absurd (BitVec.not_lt.mp hlt') (of_decide_eq_false hgt)

/-- What `tfifo_enqueue` leaves alone. -/
theorem tfifoEnqueue_frame (s : NetemSched) (x : Stamped) :
    tfifoEnqueue s x = { s with
      tQueue := (tfifoEnqueue s x).tQueue
      tRoot := (tfifoEnqueue s x).tRoot
      qlen := s.qlen + 1 } := by
  unfold tfifoEnqueue
  dsimp only
  split
  · rfl
  · split_ifs <;> rfl

/-- **`tfifo_enqueue`** puts a packet behind all packets that are not later. -/
theorem tfifoEnqueue_spec {s : NetemSched} (h : InLanes s) (x : Stamped) :
    InLanes (tfifoEnqueue s x) ∧ timed (tfifoEnqueue s x) = insertLast tts x (timed s) := by
  unfold InLanes timed tfifoEnqueue
  dsimp only
  cases ht : s.tQueue.getLast? with
  | none =>
    have hnil : s.tQueue = [] := List.getLast?_eq_none_iff.mp ht
    have hc := h.concat (x := x) (by simp [ht])
    rw [hnil] at hc ⊢
    exact ⟨hc.2, hc.1⟩
  | some tail =>
    dsimp only
    split_ifs with hle
    · have hc := h.concat (x := x) (by simpa [ht] using (show tts tail ≤ tts x from hle))
      exact ⟨hc.2, hc.1⟩
    · have hc := h.insert (x := x) (t := tail) (by simp [ht]) (BitVec.not_le.mp hle)
      dsimp only
      rw [toList_upsert h.sortedTree]
      exact ⟨hc.2, hc.1⟩

/-- **`netem_peek` and `netem_erase_head`**: the front of the queue. -/
theorem netemPeek_spec {s : NetemSched} (h : InLanes s) :
    (netemPeek s = none ∧ timed s = []) ∨
      ∃ lane x, netemPeek s = some (lane, x) ∧ timed s = x :: timed (netemEraseHead s lane) ∧
        InLanes (netemEraseHead s lane) := by
  unfold InLanes timed at *
  unfold netemPeek netemEraseHead
  rw [first_eq_head?]
  cases hq : s.tQueue with
  | nil =>
    rw [hq] at h
    cases ht : s.tRoot.toList with
    | nil => exact Or.inl ⟨rfl, inOrder_nil_left⟩
    | cons x t =>
      rw [ht] at h
      refine Or.inr ⟨.tree, x, rfl, ?_, ?_⟩ <;> dsimp only <;>
        rw [toList_eraseFirst, ht, List.tail_cons]
      · exact inOrder_cons_right (by simp)
      · exact h.pop_tree
  | cons y q =>
    rw [hq] at h
    cases ht : s.tRoot.toList with
    | nil =>
      rw [ht] at h
      refine Or.inr ⟨.queue, y, rfl, ?_, ?_⟩ <;> dsimp only <;> rw [ht, List.tail_cons]
      · exact inOrder_cons_left (by simp)
      · exact h.pop_queue (by simp)
    | cons x t =>
      rw [ht] at h
      refine Or.inr ?_
      by_cases hlt : x.timeToSend < y.timeToSend
      · have hxy : ∀ z ∈ (y :: q).head?, tts x < tts z := by
          simpa using (show tts x < tts y from hlt)
        refine ⟨.tree, x, if_pos hlt, ?_, ?_⟩ <;> dsimp only <;>
          rw [toList_eraseFirst, ht, List.tail_cons]
        · exact inOrder_cons_right hxy
        · exact h.pop_tree
      · have hyx : ∀ z ∈ (x :: t).head?, tts y ≤ tts z := by
          simpa using (show tts y ≤ tts x from BitVec.not_lt.mp hlt)
        refine ⟨.queue, y, if_neg hlt, ?_, ?_⟩ <;> dsimp only <;> rw [ht, List.tail_cons]
        · exact inOrder_cons_left hyx
        · exact h.pop_queue hyx

/-! ### Drawing random numbers -/

/-- Random numbers were drawn, and nothing else. -/
structure Drew (r r' : Rest) : Prop where
  delayDist : r'.delayDist = r.delayDist
  slotDist : r'.slotDist = r.slotDist
  lossModel : r'.lossModel = r.lossModel
  slotConfig : r'.slotConfig = r.slotConfig
  slot : r'.slot = r.slot

theorem Drew.refl (r : Rest) : Drew r r := ⟨rfl, rfl, rfl, rfl, rfl⟩

theorem Drew.trans {r r' r'' : Rest} (h : Drew r r') (h' : Drew r' r'') : Drew r r'' :=
  ⟨h'.1.trans h.1, h'.2.trans h.2, h'.3.trans h.3, h'.4.trans h.4, h'.5.trans h.5⟩

/-- Parameters that differ by random numbers only. -/
def DrewFrom (q q' : Data) : Prop := ∃ rest, Drew q.rest rest ∧ q' = { q with rest := rest }

/-- States that differ by random numbers and the counter of drops only. -/
def Quiet (s s' : NetemSched) : Prop :=
  ∃ rest drops, Drew s.data.rest rest ∧
    s' = { s with data := { s.data with rest := rest }, drops := drops }

theorem Quiet.refl (s : NetemSched) : Quiet s s := ⟨s.data.rest, s.drops, Drew.refl _, rfl⟩

theorem Quiet.trans {s s' s'' : NetemSched} (h : Quiet s s') (h' : Quiet s' s'') : Quiet s s'' := by
  obtain ⟨rest, drops, hr, rfl⟩ := h
  obtain ⟨rest', drops', hr', rfl⟩ := h'
  exact ⟨rest', drops', hr.trans hr', rfl⟩

theorem quiet_drop (s : NetemSched) : Quiet s s.drop := ⟨s.data.rest, _, Drew.refl _, rfl⟩

theorem quiet_data {s : NetemSched} {data : Data} (h : DrewFrom s.data data) :
    Quiet s { s with data := data } := by
  obtain ⟨rest, hr, rfl⟩ := h
  exact ⟨rest, s.drops, hr, rfl⟩

section Draw
variable (e : Env)

theorem drewFrom_dupEvent (q : Data) : DrewFrom q (dupEvent e q).2 := by
  unfold dupEvent
  split_ifs
  · exact ⟨q.rest, Drew.refl _, rfl⟩
  · refine ⟨_, ?_, rfl⟩
    exact ⟨rfl, rfl, rfl, rfl, rfl⟩

theorem drewFrom_lossEvent (q : Data) : DrewFrom q (lossEvent e q).2 := by
  unfold lossEvent
  split
  · split_ifs
    · exact ⟨q.rest, Drew.refl _, rfl⟩
    · refine ⟨_, ?_, rfl⟩
      exact ⟨rfl, rfl, rfl, rfl, rfl⟩
  · refine ⟨_, ?_, rfl⟩
    exact ⟨rfl, rfl, rfl, rfl, rfl⟩
  · refine ⟨_, ?_, rfl⟩
    exact ⟨rfl, rfl, rfl, rfl, rfl⟩

theorem drewFrom_corruptEvent (q : Data) : DrewFrom q (corruptEvent e q).2 := by
  unfold corruptEvent
  split_ifs
  · exact ⟨q.rest, Drew.refl _, rfl⟩
  · refine ⟨_, ?_, rfl⟩
    exact ⟨rfl, rfl, rfl, rfl, rfl⟩

theorem drewFrom_reorderEvent (q : Data) : DrewFrom q (reorderEvent e q).2 := by
  unfold reorderEvent
  split_ifs
  · exact ⟨q.rest, Drew.refl _, rfl⟩
  · refine ⟨_, ?_, rfl⟩
    exact ⟨rfl, rfl, rfl, rfl, rfl⟩

theorem drewFrom_delayOf {q q' : Data} {delay : U64} (h : delayOf e q = some (delay, q')) :
    DrewFrom q q' := by
  unfold delayOf at h
  split_ifs at h with hj
  · cases h
    exact ⟨q.rest, Drew.refl _, rfl⟩
  · obtain ⟨d, -, h'⟩ := Option.bind_eq_some_iff.mp h
    cases h'
    refine ⟨_, ?_, rfl⟩
    exact ⟨rfl, rfl, rfl, rfl, rfl⟩

theorem dup_netemCount {s : NetemSched} (hdup : s.data.duplicate = 0) (skb : Skb) :
    (netemCount e s skb).2.1 = false := by
  unfold netemCount dupEvent
  rw [if_pos hdup]
  dsimp only
  split_ifs <;> rfl

theorem quiet_netemCount (s : NetemSched) (skb : Skb) : Quiet s (netemCount e s skb).1 := by
  have hdup := quiet_data (drewFrom_dupEvent e s.data)
  have hloss := quiet_data (s := { s with data := (dupEvent e s.data).2 })
    (drewFrom_lossEvent e (dupEvent e s.data).2)
  unfold netemCount
  dsimp only
  split_ifs
  · exact (hdup.trans hloss).trans (quiet_drop _)
  · exact hdup.trans hloss

end Draw

/-! ### What is left of a packet -/

/-- A property of packets that their segments have, too; the first one with the length of the whole
packet. -/
def Parts (e : Env) (ok : Skb → Prop) : Prop := ∀ skb, ok skb → e.gso.isGso skb = true →
  ∀ seg ∈ e.gso.segment skb, ok seg ∧ ok { seg with len := skb.len }

/-- The packet is one of several segments. -/
def Segment (e : Env) (skb seg : Skb) : Prop :=
  e.gso.isGso skb = true ∧ seg ∈ e.gso.segment skb

theorem segmentsOf_tail {e : Env} {skb seg : Skb} (h : seg ∈ (segmentsOf e skb).tail) :
    Segment e skb seg := by
  unfold segmentsOf at h
  split_ifs at h with hgso
  · exact ⟨hgso, List.mem_of_mem_tail h⟩
  · cases h

/-- **What is left of a packet**: itself, its first segment with the length of the whole packet, or
nothing; behind it come segments. -/
theorem netemCorrupt_spec {e : Env} {ok : Skb → Prop} (hok : Parts e ok) {s s' : NetemSched}
    {skb : Skb} {r : Option (Option Skb × List Skb)} (hskb : ok skb)
    (h : netemCorrupt e s skb = some (s', r)) : Quiet s s' ∧ ∀ left segs, r = some (left, segs) →
      (∀ x ∈ left, ok x) ∧ ∀ seg ∈ segs, Segment e skb seg := by
  have hq := quiet_data (drewFrom_corruptEvent e s.data)
  unfold netemCorrupt at h
  dsimp only at h
  split_ifs at h with hhit
  · split at h
    · cases h
      exact ⟨hq.trans (quiet_drop _), by rintro left segs ⟨⟩⟩
    · rename_i seg segs heq
      have htail : ∀ x ∈ segs, Segment e skb x := fun x hx =>
        segmentsOf_tail (by rw [heq]; exact hx)
      have hhead : ok { seg with len := skb.len } := by
        unfold segmentsOf at heq
        split_ifs at heq with hgso
        · exact (hok skb hskb hgso seg (by rw [heq]; exact List.mem_cons_self)).2
        · cases heq
          exact hskb
      split_ifs at h
      · cases h
        refine ⟨hq.trans (quiet_data ?_), ?_⟩
        · refine ⟨_, ?_, rfl⟩
          exact ⟨rfl, rfl, rfl, rfl, rfl⟩
        · rintro left segs' ⟨⟩
          exact ⟨by simpa using hhead, htail⟩
      · cases h
        refine ⟨hq.trans (quiet_drop _), ?_⟩
        rintro left segs' ⟨⟩
        exact ⟨by simp, htail⟩
  · cases h
    exact ⟨hq, by rintro left segs ⟨⟩; simp [hskb]⟩

/-- Without corruption, a packet stays as it is. -/
theorem netemCorrupt_zero (e : Env) {s : NetemSched} (h : s.data.corrupt = 0) (skb : Skb) :
    netemCorrupt e s skb = some (s, some (some skb, [])) := by
  rw [netemCorrupt, corruptEvent, if_pos h]
  rfl

/-! ### Placing a packet -/

/-- **Where a packet goes**: to the front if it is to be reordered, and else to the place of its
time to send. Without jitter the delay is the latency. -/
theorem netemPlace_cases {e : Env} {now : U64} {s s' : NetemSched} {skb : Skb}
    (h : netemPlace e now s skb = some s') :
    (∃ rest, Drew s.data.rest rest ∧ s.data.gap ≠ 0 ∧ s' = { s with
      data := { s.data with rest := rest, counter := 0 }
      q := ⟨skb, now⟩ :: s.q
      qlen := s.qlen + 1
      backlog := s.backlog + skb.len
      requeues := s.requeues + 1 }) ∨
    ∃ rest delay, Drew s.data.rest rest ∧
      (s.data.jitter.setWidth 32 = 0 → delay = s.data.latency) ∧
      s' = tfifoEnqueue { s with
        data := { s.data with rest := rest, counter := s.data.counter + 1 }
        backlog := s.backlog + skb.len } ⟨skb, s.timeToSend now delay skb.len⟩ := by
  unfold netemPlace at h
  obtain ⟨rest, hrest, hdata⟩ := drewFrom_reorderEvent e s.data
  have hgap : (reorderEvent e s.data).1 = true → s.data.gap ≠ 0 := by
    intro hfirst h0
    simp [reorderEvent, h0] at hfirst
  dsimp only at h
  generalize reorderEvent e s.data = r at h hdata hgap
  obtain ⟨first, data⟩ := r
  dsimp only at h hdata hgap
  subst hdata
  by_cases hfirst : first = true
  · rw [if_pos hfirst] at h
    cases h
    exact Or.inl ⟨rest, hrest, hgap hfirst, rfl⟩
  · rw [if_neg hfirst] at h
    obtain ⟨⟨delay, data'⟩, hdelay, h'⟩ := Option.bind_eq_some_iff.mp h
    obtain ⟨rest', hrest', hdata'⟩ := drewFrom_delayOf e hdelay
    subst hdata'
    cases h'
    refine Or.inr ⟨rest', delay, hrest.trans hrest', fun hj => ?_, rfl⟩
    rw [delayOf, if_pos hj] at hdelay
    cases hdelay
    rfl

/-! ### What every call of `netem_enqueue` keeps -/

/-- A property of states that is kept by all that `netem_enqueue` does: random numbers and drops,
the switch for duplicates, packets that are placed, and the count of segments, if there are any. -/
structure Kept (e : Env) (now : U64) (ok : Skb → Prop) (P : NetemSched → Prop) : Prop where
  parts : Parts e ok
  quiet : ∀ {s s'}, Quiet s s' → P s → P s'
  duplicate : ∀ {s} d, P s → P { s with data := { s.data with duplicate := d } }
  place : ∀ {s s' skb}, ok skb → P s → ¬ s.data.limit ≤ s.qlen →
    netemPlace e now s skb = some s' → P s'
  count : ∀ {s skb} nb, ok skb → e.gso.isGso skb = true → P s →
    P { s with qlen := s.qlen + nb }

section Keeps
variable {e : Env} {now : U64} {ok : Skb → Prop} {P : NetemSched → Prop} (hk : Kept e now ok P)
  {enqueue : NetemSched → Skb → Option (NetemSched × Xmit)}

/-- The calls of an enqueue keep the property. -/
def EnqueueKeeps (ok : Skb → Prop) (P : NetemSched → Prop)
    (enqueue : NetemSched → Skb → Option (NetemSched × Xmit)) : Prop :=
  ∀ {s skb s' ret}, ok skb → P s → enqueue s skb = some (s', ret) → P s'

include hk

theorem netemSegments_keeps (henq : EnqueueKeeps ok P enqueue) : ∀ {segs : List Skb}
    {s s' : NetemSched} {nb nb' : U32}, (∀ x ∈ segs, ok x) → P s →
      netemSegments enqueue segs s nb = some (s', nb') → P s'
  | [], s, s', nb, nb', _, hs, h => by
    cases h
    exact hs
  | seg :: segs, s, s', nb, nb', hsegs, hs, h => by
    obtain ⟨⟨s1, rc⟩, h1, h2⟩ := Option.bind_eq_some_iff.mp h
    have hs1 := henq (hsegs seg List.mem_cons_self) hs h1
    have hrest : ∀ x ∈ segs, ok x := fun x hx => hsegs x (List.mem_cons_of_mem _ hx)
    dsimp only at h2
    split_ifs at h2
    · exact netemSegments_keeps henq hrest hs1 h2
    · exact netemSegments_keeps henq hrest (hk.quiet (quiet_drop s1) hs1) h2

theorem finishSegs_keeps (henq : EnqueueKeeps ok P enqueue) {s s' : NetemSched} {ret : Xmit}
    {skb : Skb} {segs : List Skb} (hskb : ok skb) (hsegs : ∀ seg ∈ segs, Segment e skb seg)
    (hs : P s) (h : finishSegs enqueue s segs = some (s', ret)) : P s' := by
  obtain ⟨⟨s1, nb⟩, h1, h2⟩ := Option.bind_eq_some_iff.mp h
  cases h2
  cases segs with
  | nil =>
    cases h1
    rw [BitVec.ofNat_eq_ofNat, BitVec.add_zero]
    exact hs
  | cons seg segs =>
    have hgso := (hsegs seg List.mem_cons_self).1
    have hparts : ∀ x ∈ seg :: segs, ok x := fun x hx =>
      (hk.parts skb hskb hgso x (hsegs x hx).2).1
    exact hk.count nb hskb hgso (netemSegments_keeps hk henq hparts hs h1)

theorem netemClone_keeps (henq : EnqueueKeeps ok P enqueue) {s s' : NetemSched} {skb : Skb}
    {clones : Bool} (hskb : ok skb) (hs : P s) (h : netemClone enqueue clones s skb = some s') :
    P s' := by
  unfold netemClone at h
  split_ifs at h
  · obtain ⟨⟨s1, ret⟩, h1, rfl⟩ := Option.map_eq_some_iff.mp h
    exact hk.duplicate _ (henq hskb (hk.duplicate 0 hs) h1)
  · cases h
    exact hs

/-- **What every part keeps, `netem_enqueue` keeps.** -/
theorem netemEnqueue_keeps : ∀ n, EnqueueKeeps ok P (netemEnqueue e now n) := by
  intro n
  induction n with
  | zero =>
    intro s skb s' ret _ _ h
    cases h
  | succ n ih =>
    intro s skb s' ret hskb hs h
    rw [netemEnqueue] at h
    have hcount := hk.quiet (quiet_netemCount e s skb) hs
    generalize netemCount e s skb = r at h hcount
    obtain ⟨s1, dup, lost⟩ := r
    dsimp only at h hcount
    by_cases hlost : (lost && !dup) = true
    · rw [if_pos hlost] at h
      cases h
      exact hk.quiet (quiet_drop s1) hcount
    rw [if_neg hlost] at h
    obtain ⟨s2, hclone, h⟩ := Option.bind_eq_some_iff.mp h
    have hs2 : P s2 := netemClone_keeps hk ih hskb hcount hclone
    obtain ⟨⟨s3, r⟩, hcorrupt, h⟩ := Option.bind_eq_some_iff.mp h
    obtain ⟨hquiet, hparts⟩ := netemCorrupt_spec hk.parts hskb hcorrupt
    have hs3 := hk.quiet hquiet hs2
    rcases r with _ | ⟨_ | skb', segs⟩
    · cases h
      exact hs3
    · exact finishSegs_keeps hk ih hskb (hparts none segs rfl).2 hs3 h
    · obtain ⟨hleft, hsegs⟩ := hparts (some skb') segs rfl
      dsimp only at h
      by_cases hlimit : s3.data.limit ≤ s3.qlen
      · rw [if_pos hlimit] at h
        cases h
        exact hk.quiet (quiet_drop s3) hs3
      · rw [if_neg hlimit] at h
        obtain ⟨s4, h4, h⟩ := Option.bind_eq_some_iff.mp h
        have hs4 := hk.place (hleft skb' rfl) hs3 hlimit h4
        exact finishSegs_keeps hk ih hskb hsegs hs4 h

end Keeps

end DynBandwidth.Sched.NetemQueue
