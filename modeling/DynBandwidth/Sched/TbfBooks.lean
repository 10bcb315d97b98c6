import DynBandwidth.Sched.TbfShape

/-! # The books of the token bucket

A token bucket over a queue is a queue: what it has taken since the last reset is what was sent and
then what is held (`tbf_is_queue`). Its counter of packets says what is held. Its counter of bytes
does so only as long as no packet had to be segmented: `tbf_segment` counts the segments but not
their bytes, which are subtracted all the same when the segments leave. -/

namespace DynBandwidth.Sched.TbfBooks

open DynBandwidth.Lib.Bytes DynBandwidth.Lib.Runs DynBandwidth.Tbf.Kernel
open DynBandwidth.Sched.Parms DynBandwidth.Sched.Qdisc DynBandwidth.Sched.Tbf
open DynBandwidth.Sched.TbfShape
open DynBandwidth.Reorder.Header (U32 U64)

section Books
variable {σ : Type}

/-! ### What is taken -/

/-- The packets that the discipline inside takes, of some that arrive one after the other. -/
def qdiscTakes (ops : QdiscOps σ) (now : U64) : Option σ → List Skb → List Skb
  | _, [] => []
  | q, skb :: skbs =>
    (if (qdiscEnqueue ops now q skb).2 = .success then [skb] else []) ++
      qdiscTakes ops now (qdiscEnqueue ops now q skb).1 skbs

/-- The packets that the token bucket takes when a packet arrives. -/
def takes (e : Env σ) (now : U64) (s : TbfSched σ) (skb : Skb) : List Skb :=
  qdiscTakes e.ops now s.qdisc (offered e s skb)

/-- The packets inside; `noop_qdisc` holds none. -/
def heldIn (held : σ → List Skb) : Option σ → List Skb
  | none => []
  | some c => held c

/-! ### Runs with books -/

/-- A token bucket; what it took, what it sent, and the bytes of the segments it took, all since the
last reset. -/
structure Ledger (σ : Type) where
  q : TbfSched σ
  taken : List Skb
  sent : List Skb
  segBytes : ℕ

def Ledger.start (now : U64) : Ledger σ := ⟨tbfZero now, [], [], 0⟩

def post (e : Env σ) (refills : Bool) (b : Ledger σ) : Event → Option (Ledger σ)
  | .enqueue now skb =>
    some { b with
      q := (tbfEnqueue e now b.q skb).1
      taken := b.taken ++ takes e now b.q skb
      segBytes := b.segBytes + if segmented e b.q skb then bytesOf (takes e now b.q skb) else 0 }
  | .dequeue now =>
    some { b with
      q := (tbfDequeue e now b.q).1
      sent := b.sent ++ (tbfDequeue e now b.q).2.toList }
  | .change _ opt =>
    match tbfChange e refills b.q opt with
    | .error _ => some b
    | .ok q => some { b with q := q }
  | .reset now => some ⟨tbfReset e now b.q, [], [], 0⟩

/-- **The books**: nothing that was taken is lost, the order is kept, and the counters say what is
held, but for the bytes of segments. -/
structure Balanced (held : σ → List Skb) (b : Ledger σ) : Prop where
  order : b.taken = b.sent ++ heldIn held b.q.qdisc
  counted : Counted (heldIn held b.q.qdisc) b.q.qlen (b.q.backlog + BitVec.ofNat 32 b.segBytes)

theorem balanced_start (held : σ → List Skb) (now : U64) : Balanced held (Ledger.start now) :=
  ⟨rfl, counted_nil⟩

/-! ### Arrivals -/

section Arrivals
variable {e : Env σ} {held : σ → List Skb}

theorem heldIn_enqueue (hq : e.ops.IsQueue held) (now : U64) (q : Option σ) (skb : Skb) :
    heldIn held (qdiscEnqueue e.ops now q skb).1 =
      heldIn held q ++ if (qdiscEnqueue e.ops now q skb).2 = .success then [skb] else [] := by
  cases q with
  | none => rfl
  | some c => exact hq.enqueue now c skb

/-- Some packets more are counted. -/
theorem counted_append {l : List Skb} {qlen backlog : U32} (h : Counted l qlen backlog)
    (l' : List Skb) : Counted (l ++ l') (qlen + BitVec.ofNat 32 l'.length)
      (backlog + BitVec.ofNat 32 (bytesOf l')) :=
  ⟨by rw [h.qlen, List.length_append, BitVec.ofNat_add],
    by rw [h.backlog, bytesOf_append, BitVec.ofNat_add]⟩

/-- Packets that arrive inside, one after the other: those that are taken are at the end. -/
theorem heldIn_enqueueAll (hq : e.ops.IsQueue held) (now : U64) :
    ∀ (skbs : List Skb) (q : Option σ),
      heldIn held (skbs.foldl (fun q x => (qdiscEnqueue e.ops now q x).1) q) =
        heldIn held q ++ qdiscTakes e.ops now q skbs
  | [], _ => (List.append_nil _).symm
  | skb :: skbs, q => by
    rw [List.foldl_cons, heldIn_enqueueAll hq now skbs, heldIn_enqueue hq, qdiscTakes,
      List.append_assoc]

/-- **The segments** that are taken are counted; the counters of the token bucket stay. -/
theorem segments_spec (now : U64) : ∀ (segs : List Skb) (r : TbfSched σ × U32),
    (segs.foldl (tbfSegmentOne e now) r).2 =
        r.2 + BitVec.ofNat 32 (qdiscTakes e.ops now r.1.qdisc segs).length ∧
      (segs.foldl (tbfSegmentOne e now) r).1.qlen = r.1.qlen ∧
      (segs.foldl (tbfSegmentOne e now) r).1.backlog = r.1.backlog
  | [], r => by simp [qdiscTakes]
  | seg :: segs, r => by
    obtain ⟨hnb, hqlen, hbacklog⟩ := segments_spec now segs (tbfSegmentOne e now r seg)
    have hstep : (tbfSegmentOne e now r seg).1.qdisc = (qdiscEnqueue e.ops now r.1.qdisc seg).1 ∧
        (tbfSegmentOne e now r seg).2 = r.2 + BitVec.ofNat 32
          (if (qdiscEnqueue e.ops now r.1.qdisc seg).2 = .success then [seg] else []).length ∧
        (tbfSegmentOne e now r seg).1.qlen = r.1.qlen ∧
        (tbfSegmentOne e now r seg).1.backlog = r.1.backlog := by
      unfold tbfSegmentOne
      generalize qdiscEnqueue e.ops now r.1.qdisc seg = p
      obtain ⟨q, ret⟩ := p
      cases ret <;> simp [TbfSched.drop]
    rw [List.foldl_cons, qdiscTakes, hnb, hqlen, hbacklog, hstep.1, hstep.2.1, hstep.2.2.1,
      hstep.2.2.2]
    refine ⟨?_, rfl, rfl⟩
    rw [List.length_append, BitVec.ofNat_add, add_assoc]

/-- **An arrival is counted**; of segments, the number is, and the bytes are not. -/
theorem tbfEnqueue_counts (now : U64) (s : TbfSched σ) (skb : Skb) :
    (tbfEnqueue e now s skb).1.qlen = s.qlen + BitVec.ofNat 32 (takes e now s skb).length ∧
      (tbfEnqueue e now s skb).1.backlog = s.backlog +
        BitVec.ofNat 32 (if segmented e s skb then 0 else bytesOf (takes e now s skb)) := by
  unfold tbfEnqueue takes offered
  by_cases hbig : s.maxSize < skb.len
  · cases hgso : e.gso.isGso skb && e.gso.validateMacLen skb s.maxSize with
    | false =>
      have hseg : segmented e s skb = false := by rw [segmented, hgso, Bool.and_false]
      rw [if_pos hbig, if_pos hbig, hseg]
      simp [qdiscTakes, TbfSched.drop]
    | true =>
      have hseg : segmented e s skb = true := by rw [segmented, hgso, decide_eq_true hbig]; rfl
      rw [if_pos hbig, hseg, if_pos rfl, if_pos rfl, if_pos rfl, tbfSegment]
      cases hs : e.gso.segment skb with
      | nil => simp [qdiscTakes, TbfSched.drop]
      | cons seg segs =>
        obtain ⟨hnb, hqlen, hbacklog⟩ := segments_spec (e := e) now (seg :: segs) (s, 0)
        refine ⟨?_, ?_⟩
        · exact (congrArg₂ (· + ·) hqlen hnb).trans (by rw [zero_add])
        · exact hbacklog.trans (add_zero _).symm
  · have hseg : segmented e s skb = false := by rw [segmented, decide_eq_false hbig, Bool.false_and]
    rw [if_neg hbig, if_neg hbig, hseg]
    simp only [Bool.false_eq_true, if_false, qdiscTakes, List.append_nil]
    generalize qdiscEnqueue e.ops now s.qdisc skb = p
    obtain ⟨q, ret⟩ := p
    cases ret <;> simp [TbfSched.drop]

end Arrivals

/-! ### The books balance -/

section Balance
variable {e : Env σ} {held : σ → List Skb} {refills : Bool}

theorem heldIn_peek (hq : e.ops.IsQueue held) (now : U64) (q : Option σ) :
    heldIn held (qdiscPeek e.ops now q).1 = heldIn held q ∧
      (qdiscPeek e.ops now q).2 = (heldIn held q).head? := by
  cases q with
  | none => exact ⟨rfl, rfl⟩
  | some c => exact hq.peek now c

theorem heldIn_dequeue (hq : e.ops.IsQueue held) (now : U64) (q : Option σ) :
    heldIn held (qdiscDequeuePeeked e.ops now q).1 = (heldIn held q).tail := by
  cases q with
  | none => rfl
  | some c => exact (hq.dequeue now c).1

theorem heldIn_inner (hq : e.ops.IsQueue held) {limit : U32} {q q' : Option σ}
    (h : tbfInner e limit q = .ok q') : heldIn held q' = heldIn held q := by
  cases q with
  | some c =>
    rw [tbfInner] at h
    cases hc : e.ops.fifoSetLimit c limit with
    | error err => rw [hc] at h; cases h
    | ok c' =>
      rw [hc] at h
      cases h
      exact hq.fifoSetLimit hc
  | none =>
    rw [tbfInner] at h
    split_ifs at h
    · cases hc : e.ops.fifoCreateDflt limit with
      | error err => rw [hc] at h; cases h
      | ok c' =>
        rw [hc] at h
        cases h
        exact hq.fifoCreateDflt hc
    · cases h
      rfl

/-- **Every event keeps the books.** -/
theorem Balanced.post (hq : e.ops.IsQueue held) {b : Ledger σ} (h : Balanced held b) (ev : Event) :
    ∃ b', post e refills b ev = some b' ∧ Balanced held b' := by
  cases ev with
  | enqueue now skb =>
    have hheld : heldIn held (tbfEnqueue e now b.q skb).1.qdisc =
        heldIn held b.q.qdisc ++ takes e now b.q skb := by
      rw [tbfEnqueue_qdisc, heldIn_enqueueAll hq]
      rfl
    obtain ⟨hqlen, hbacklog⟩ := tbfEnqueue_counts (e := e) now b.q skb
    refine ⟨_, rfl, ?_, ?_⟩
    · rw [hheld, h.order, List.append_assoc]
    · have hc := counted_append h.counted (takes e now b.q skb)
      rw [hheld, hqlen, hbacklog]
      convert hc using 1
      cases segmented e b.q skb <;> simp [BitVec.ofNat_add] <;> ring
  | dequeue now =>
    refine ⟨_, rfl, ?_⟩
    obtain ⟨hpq, hp⟩ := heldIn_peek hq now b.q.qdisc
    rcases tbfDequeue_cases hq.faithful now b.q with ⟨-, he⟩ | ⟨skb, hskb, -, he⟩ | ⟨skb, -, -, he⟩
    · rw [he]
      exact ⟨by simpa [hpq] using h.order, by simpa [hpq] using h.counted⟩
    · have hd := heldIn_dequeue hq now (qdiscPeek e.ops now b.q.qdisc).1
      rw [hpq] at hd
      rw [hp] at hskb
      obtain ⟨rest, hrest⟩ := List.head?_eq_some_iff.mp hskb
      have hc := h.counted
      have ho := h.order
      rw [hrest] at hc hd ho
      rw [he]
      refine ⟨?_, ?_⟩
      · simp [hd, ho]
      · rw [hd]
        dsimp only
        rw [sub_add_eq_add_sub]
        exact hc.tail
    · rw [he]
      exact ⟨by simpa [hpq] using h.order, by simpa [hpq] using h.counted⟩
  | change now opt =>
    cases hch : tbfChange e refills b.q opt with
    | error err => exact ⟨b, by rw [TbfBooks.post, hch], h⟩
    | ok q =>
      obtain ⟨p, qdisc, -, hin, rfl⟩ := tbfChange_ok hch
      have hheld := heldIn_inner hq hin
      refine ⟨_, by rw [TbfBooks.post, hch], ?_⟩
      exact ⟨by rw [hheld]; exact h.order, by rw [hheld]; exact h.counted⟩
  | reset now =>
    refine ⟨_, rfl, ?_⟩
    have hheld : heldIn held (b.q.qdisc.map e.ops.reset) = [] := by
      cases b.q.qdisc with
      | none => rfl
      | some c => exact hq.reset c
    rw [tbfReset]
    exact ⟨by rw [hheld]; rfl, by rw [hheld]; exact counted_nil⟩

/-- **A token bucket over a queue is a queue**: in every run, what was taken is what was sent and
then what is held, in this order; the packets are counted, and the bytes but for those of segments.
-/
theorem tbf_is_queue (hq : e.ops.IsQueue held) (start : U64) {evs : List Event} {b : Ledger σ}
    (hrun : run (TbfBooks.post e refills) (Ledger.start start) evs = some b) : Balanced held b :=
  run_inv (fun _ ev h => h.post hq ev) (balanced_start held start) hrun

end Balance

end Books

theorem twoPackets_posted :
    (run (post Env.plain false) (Ledger.start 0) twoPackets).isSome := by decide +kernel

theorem tbf_is_queue_twoPackets :
    ∃ b, run (post Env.plain false) (Ledger.start 0) twoPackets = some b ∧
      b.taken = b.sent ++ heldIn Fifo.q b.q.qdisc ∧ b.sent = [⟨1, 1500⟩, ⟨2, 1000⟩] := by
  refine ⟨_, (Option.some_get twoPackets_posted).symm, ?_, by decide +kernel⟩
  exact (tbf_is_queue bfifoOps_isQueue 0 (Option.some_get twoPackets_posted).symm).order

/-! ### The limit of the byte queue -/

section Limit
variable {e : Env Fifo} {refills : Bool} {cap : ℕ}

/-- The counters of the byte queue are right, and it holds no more than the cap. -/
structure Within (cap : ℕ) (f : Fifo) : Prop where
  counted : Counted f.q f.qlen f.backlog
  limit : f.limit.toNat ≤ cap
  bytes : bytesOf f.q ≤ cap

/-- An event that the limit can deal with: packets are so small that the sum with the cap has 32
bits, and no limit is above the cap. -/
def Modest (e : Env Fifo) (cap : ℕ) (b : Ledger Fifo) : Event → Prop
  | .enqueue _ skb => ∀ x ∈ offered e b.q skb, x.len.toNat + cap < 2 ^ 32
  | .dequeue _ => True
  | .change _ opt => ∀ p, tbfDecode e.kernel opt = .ok p → p.limit.toNat ≤ cap
  | .reset _ => True

theorem Within.enqueue {f : Fifo} (h : Within cap f) {skb : Skb}
    (hlen : skb.len.toNat + cap < 2 ^ 32) : Within cap (bfifoEnqueue f skb).1 := by
  unfold bfifoEnqueue
  split_ifs with hle
  · refine ⟨h.counted.snoc skb, h.limit, ?_⟩
    have hlimit := h.limit
    have hbytes := h.bytes
    have hback : f.backlog.toNat = bytesOf f.q := by
      rw [h.counted.backlog, BitVec.toNat_ofNat, Nat.mod_eq_of_lt (by omega)]
    rw [BitVec.le_def, BitVec.toNat_add, hback, Nat.mod_eq_of_lt (by omega)] at hle
    simp only [qdiscEnqueueTail, bytesOf_append, bytesOf_cons, bytesOf_nil]
    omega
  · exact ⟨h.counted, h.limit, h.bytes⟩

theorem Within.dequeue {f : Fifo} (h : Within cap f) : Within cap (qdiscDequeueHead f).1 := by
  obtain ⟨q, qlen, backlog, limit, drops⟩ := f
  cases q with
  | nil => exact h
  | cons skb q =>
    have hbytes := h.bytes
    rw [bytesOf_cons] at hbytes
    exact ⟨h.counted.tail, h.limit, by show bytesOf q ≤ cap; omega⟩

theorem within_inner (he : e.ops = bfifoOps) {limit : U32} (hlimit : limit.toNat ≤ cap)
    {q q' : Option Fifo} (hq : ∀ f, q = some f → Within cap f) (h : tbfInner e limit q = .ok q') :
    ∀ f, q' = some f → Within cap f := by
  rintro f rfl
  cases q with
  | some c =>
    rw [tbfInner, he] at h
    cases h
    have hc := hq c rfl
    exact ⟨hc.counted, hlimit, hc.bytes⟩
  | none =>
    rw [tbfInner, he] at h
    split_ifs at h <;> cases h
    exact ⟨counted_nil, hlimit, Nat.zero_le _⟩

/-- Every event keeps the byte queue within the cap. -/
theorem within_post (he : e.ops = bfifoOps) {b : Ledger Fifo}
    (h : ∀ f, b.q.qdisc = some f → Within cap f) {ev : Event} (hev : Modest e cap b ev) :
    ∃ b', post e refills b ev = some b' ∧ ∀ f, b'.q.qdisc = some f → Within cap f := by
  cases ev with
  | enqueue now skb =>
    refine ⟨_, rfl, ?_⟩
    refine tbfEnqueue_inner (P := fun q => ∀ f, q = some f → Within cap f)
      (fun q x hx hq f hf => ?_) h
    cases q with
    | none => cases hf
    | some c =>
      rw [he] at hf
      cases hf
      exact (hq c rfl).enqueue (hev x hx)
  | dequeue now =>
    refine ⟨_, rfl, ?_⟩
    have hf : e.ops.Faithful := he ▸ bfifoOps_isQueue.faithful
    rcases tbfDequeue_cases hf now b.q with ⟨-, hd⟩ | ⟨skb, -, -, hd⟩ | ⟨skb, -, -, hd⟩
    all_goals
      rw [hd, he]
      dsimp only
      cases hq : b.q.qdisc with
      | none => rintro f ⟨⟩
      | some c =>
        rintro f ⟨⟩
        first
        | exact h c hq
        | exact (h c hq).dequeue
  | change now opt =>
    cases hch : tbfChange e refills b.q opt with
    | error err => exact ⟨b, by rw [post, hch], h⟩
    | ok q =>
      obtain ⟨p, qdisc, hp, hin, rfl⟩ := tbfChange_ok hch
      exact ⟨_, by rw [post, hch], within_inner he (hev p hp) h hin⟩
  | reset now =>
    refine ⟨_, rfl, ?_⟩
    rw [tbfReset, he]
    cases hq : b.q.qdisc with
    | none => rintro f ⟨⟩
    | some c =>
      rintro f ⟨⟩
      exact ⟨counted_nil, (h c hq).limit, Nat.zero_le _⟩

/-- **The limit is kept**: in every run in which no limit is above the cap, and the sum of the cap
and a packet has 32 bits, the byte queue never holds more bytes than the cap. -/
theorem limit_kept (he : e.ops = bfifoOps) (start : U64) {evs : List Event} {b : Ledger Fifo}
    (hmodest : AllSteps (post e refills) (Modest e cap) (Ledger.start start) evs)
    (hrun : run (post e refills) (Ledger.start start) evs = some b) :
    bytesOf (heldIn Fifo.q b.q.qdisc) ≤ cap := by
  have hinv : ∀ f, b.q.qdisc = some f → Within cap f :=
    run_inv_of_allSteps (I := fun b => ∀ f, b.q.qdisc = some f → Within cap f)
      (fun _ _ h hev => within_post he h hev) (by rintro f ⟨⟩) hmodest hrun
  cases hq : b.q.qdisc with
  | none => exact Nat.zero_le _
  | some f => exact (hinv f hq).bytes

end Limit

theorem limit_kept_twoPackets :
    ∃ b, run (post Env.plain false) (Ledger.start 0) twoPackets = some b ∧
      bytesOf (heldIn Fifo.q b.q.qdisc) ≤ 100000 := by
  have hlimit : ∀ p, tbfDecode Env.plain.kernel (plainOptions 1000000 2500) = .ok p →
      p.limit.toNat ≤ 100000 := by
    intro p hp
    have h : (tbfDecode Env.plain.kernel (plainOptions 1000000 2500)).toOption.all
        (fun p => p.limit.toNat ≤ 100000) = true := by decide +kernel
    rw [hp] at h
    exact of_decide_eq_true h
  have hoff : ∀ (s : TbfSched Fifo) (skb x : Skb), x ∈ offered Env.plain s skb → x = skb := by
    intro s skb x hx
    have hseg : segmented Env.plain s skb = false := by simp [segmented, Env.plain]
    rw [offered, hseg] at hx
    split_ifs at hx <;> simp_all
  have hrun := (Option.some_get twoPackets_posted).symm
  refine ⟨_, hrun, limit_kept rfl 0 ?_ hrun⟩
  have hbig : ∀ (s : TbfSched Fifo) (id : ℕ) (len : U32), len.toNat ≤ 1500 →
      ∀ x ∈ offered Env.plain s ⟨id, len⟩, x.len.toNat + 100000 < 2 ^ 32 := by
    intro s id len hlen x hx
    rw [hoff s _ x hx]
    dsimp only
    omega
  exact ⟨hlimit, fun _ _ => ⟨hbig _ 1 1500 (by decide), fun _ _ => ⟨hbig _ 2 1000 (by decide),
    fun _ _ => ⟨trivial, fun _ _ => ⟨trivial, fun _ _ => trivial⟩⟩⟩⟩⟩

end DynBandwidth.Sched.TbfBooks
