import DynBandwidth.Lib.TokenBucket
import DynBandwidth.Sched.Tbf

/-! # What the token bucket lets through

The data flow of a token bucket obeys its rate: for any two packets of a run, the prices of the
packets from the first to the second are at most the depth of the bucket and the time between them
(`sent_conforms`). The comment at the top of `sch_tbf.c` says so for a rate that stays the same.
With the `tbf_change` of this repository it holds across changes of the rate (`patched_conforms`);
with the one of the kernel each change adds a depth. In bytes, this is what the comment states
(`patched_bytes`).

The numbers of the code are bit vectors with a sign. As long as the clock has 62 bits nothing
overflows, and the state of the code is a bucket of `Lib.TokenBucket` (`Inv`). -/

namespace DynBandwidth.Sched.TbfShape

open DynBandwidth.Lib.Bytes DynBandwidth.Lib.Runs DynBandwidth.Lib.Signed
open DynBandwidth.Lib.TokenBucket
open DynBandwidth.Tbf.Uapi DynBandwidth.Tbf.Kernel
open DynBandwidth.Sched.Rates DynBandwidth.Sched.Parms DynBandwidth.Sched.Qdisc
open DynBandwidth.Sched.Tbf
open DynBandwidth.Reorder.Header (U8 U16 U32 U64)

/-! ### Runs -/

/-- A packet that was sent: when, with which parameters, and what was left of the tokens. -/
structure Sent where
  now : U64
  skb : Skb
  rate : PschedRatecfg
  peak : PschedRatecfg
  buffer : U64
  mtu : U64
  tokens : U64
  ptokens : U64
  deriving DecidableEq, Repr

/-- What is recorded: packets that were sent, and buckets that were filled. -/
inductive Entry
  | sent (x : Sent)
  | refill (now tokens ptokens : U64)
  deriving DecidableEq, Repr

/-- A token bucket, the time of the last event, and the record. -/
structure World (σ : Type) where
  q : TbfSched σ
  clock : U64
  log : List Entry

/-- A new token bucket, with a discipline inside. -/
def World.start {σ : Type} (now : U64) (inner : Option σ) : World σ :=
  { q := { (tbfZero now : TbfSched σ) with qdisc := inner }, clock := now, log := [] }

section Step
variable {σ : Type} (e : Env σ) (refills : Bool)

/-- A packet that leaves. -/
def record (now : U64) (s : TbfSched σ) (skb : Skb) : Entry :=
  .sent ⟨now, skb, s.rate, s.peak, s.buffer, s.mtu, s.toks now skb.len, s.ptoks now skb.len⟩

/-- An event. A change that is refused changes nothing. -/
def step (w : World σ) : Event → Option (World σ)
  | .enqueue now skb => some { w with q := (tbfEnqueue e now w.q skb).1, clock := now }
  | .dequeue now =>
    some {
      q := (tbfDequeue e now w.q).1
      clock := now
      log := w.log ++ ((tbfDequeue e now w.q).2.map (record now w.q)).toList }
  | .change now opt =>
    match tbfChange e refills w.q opt with
    | .error _ => some { w with clock := now }
    | .ok q =>
      some {
        q := q
        clock := now
        log := w.log ++ if refills then [.refill q.tC q.tokens q.ptokens] else [] }
  | .reset now =>
    some {
      q := tbfReset e now w.q
      clock := now
      log := w.log ++ [.refill now w.q.buffer w.q.mtu] }

end Step

/-- The clock does not go back, and has 62 bits. -/
def Clocked {σ : Type} (w : World σ) (ev : Event) : Prop :=
  w.clock ≤ ev.now ∧ ev.now.toNat < 2 ^ 62

instance {σ : Type} (w : World σ) (ev : Event) : Decidable (Clocked w ev) :=
  inferInstanceAs (Decidable (_ ∧ _))

/-! ### Prices -/

def Sent.price (x : Sent) : ℤ := (pschedL2tNs x.rate x.skb.len).toNat

/-- Without a peak rate the second bucket costs nothing. -/
def Sent.pprice (x : Sent) : ℤ :=
  if x.peak.rateBytesPs ≠ 0 then ((pschedL2tNs x.peak x.skb.len).toNat : ℤ) else 0

/-- An entry as a move of the bucket of the rate. -/
def Entry.move : Entry → Move ℤ
  | .sent x => .pay x.now.toNat x.buffer.toNat x.price x.tokens.toNat
  | .refill now tokens _ => .refill now.toNat tokens.toNat

/-- An entry as a move of the bucket of the peak rate. -/
def Entry.pmove : Entry → Move ℤ
  | .sent x => .pay x.now.toNat x.mtu.toNat x.pprice x.ptokens.toNat
  | .refill now _ ptokens => .refill now.toNat ptokens.toNat

/-! ### No number overflows -/

/-- The numbers of a token bucket, and the prices of packets, are far from the sign bit. -/
structure Bounded {σ : Type} (s : TbfSched σ) : Prop where
  buffer : s.buffer.toNat < 2 ^ 62
  mtu : s.mtu.toNat < 2 ^ 62
  tokens : s.tokens.toNat < 2 ^ 62
  ptokens : s.ptokens.toNat < 2 ^ 62
  price : ∀ len, (pschedL2tNs s.rate len).toNat < 2 ^ 62
  pprice : ∀ len, (pschedL2tNs s.peak len).toNat < 2 ^ 62

section Bounded
variable {σ : Type} {s : TbfSched σ} {now : U64}

/-- The tokens at a time, before anything is paid: as the code computes them. -/
theorem toNat_grown (hs : Bounded s) (htime : s.tC ≤ now) (hnow : now.toNat < 2 ^ 62)
    {tokens top : U64} (htok : tokens.toNat < 2 ^ 62) (htop : top.toNat < 2 ^ 62) :
    (capS64 (minS64 (now - s.tC) s.buffer + tokens) top).toNat =
      min top.toNat (min (now.toNat - s.tC.toNat) s.buffer.toNat + tokens.toNat) := by
  have hb := hs.buffer
  have hsub : (now - s.tC).toNat = now.toNat - s.tC.toNat := BitVec.toNat_sub_of_le htime
  have hmin : (minS64 (now - s.tC) s.buffer).toNat =
      min (now.toNat - s.tC.toNat) s.buffer.toNat := by
    rw [toNat_minS64 (by omega) (by omega), hsub]
  have hadd : (minS64 (now - s.tC) s.buffer + tokens).toNat =
      min (now.toNat - s.tC.toNat) s.buffer.toNat + tokens.toNat := by
    rw [BitVec.toNat_add, hmin, Nat.mod_eq_of_lt (by omega)]
  rw [toNat_capS64 (by omega) (by omega), hadd]

/-- **At a time, the code computes the tokens without overflow**: what it has in 64 bits with a sign
are the tokens of the numbers, for packets of every length. -/
structure Exact (s : TbfSched σ) (now : U64) : Prop where
  time : s.tC ≤ now
  toks : ∀ len, (s.toks now len).toInt = ((min s.buffer.toNat
    (min (now.toNat - s.tC.toNat) s.buffer.toNat + s.tokens.toNat) : ℕ) : ℤ) -
      (pschedL2tNs s.rate len).toNat
  ptoks : s.peakPresent = true → ∀ len, (s.ptoks now len).toInt = ((min s.mtu.toNat
    (min (now.toNat - s.tC.toNat) s.buffer.toNat + s.ptokens.toNat) : ℕ) : ℤ) -
      (pschedL2tNs s.peak len).toNat

theorem exact_of_bounded (hs : Bounded s) (htime : s.tC ≤ now) (hnow : now.toNat < 2 ^ 62) :
    Exact s now where
  time := htime
  toks len := by
    have hg := toNat_grown hs htime hnow hs.tokens hs.buffer
    have hb := hs.buffer
    rw [TbfSched.toks, toInt_sub_of_lt (by omega) (hs.price len), hg]
  ptoks hp len := by
    have hg := toNat_grown hs htime hnow hs.ptokens hs.mtu
    have hm := hs.mtu
    rw [TbfSched.ptoks, if_pos hp, toInt_sub_of_lt (by omega) (hs.pprice len), hg]

/-- `toks` as the level of a bucket. -/
theorem toInt_toks (hs : Bounded s) (htime : s.tC ≤ now) (hnow : now.toNat < 2 ^ 62) (len : U32) :
    (s.toks now len).toInt =
      Bucket.level ⟨(s.tokens.toNat : ℤ), s.tC.toNat⟩ s.buffer.toNat now.toNat -
        (pschedL2tNs s.rate len).toNat := by
  have hle : s.tC.toNat ≤ now.toNat := htime
  rw [(exact_of_bounded hs htime hnow).toks len, level_eq_min_min (Int.natCast_nonneg _)]
  push_cast [hle]
  rw [add_comm]

/-- `ptoks` with a peak rate. -/
theorem toInt_ptoks (hs : Bounded s) (htime : s.tC ≤ now) (hnow : now.toNat < 2 ^ 62) (len : U32)
    (hp : s.peakPresent = true) : (s.ptoks now len).toInt =
      min s.mtu.toNat (min (now.toNat - s.tC.toNat) s.buffer.toNat + s.ptokens.toNat) -
        ((pschedL2tNs s.peak len).toNat : ℤ) := by
  rw [(exact_of_bounded hs htime hnow).ptoks hp len, Nat.cast_min]

theorem ptoks_of_not (hp : s.peakPresent = false) (now : U64) (len : U32) :
    s.ptoks now len = 0 := by
  rw [TbfSched.ptoks, hp]
  rfl

/-- The second bucket may lose tokens. -/
theorem toInt_ptoks_le (hs : Bounded s) (htime : s.tC ≤ now) (hnow : now.toNat < 2 ^ 62)
    (len : U32) :
    (s.ptoks now len).toInt + (if s.peak.rateBytesPs ≠ 0 then
        ((pschedL2tNs s.peak len).toNat : ℤ) else 0) ≤
      Bucket.level ⟨(s.ptokens.toNat : ℤ), s.tC.toNat⟩ s.mtu.toNat now.toNat := by
  have hle : s.tC.toNat ≤ now.toNat := htime
  unfold Bucket.level
  by_cases hp : s.peak.rateBytesPs ≠ 0
  · rw [toInt_ptoks hs htime hnow len (decide_eq_true hp), if_pos hp]
    dsimp only
    omega
  · rw [ptoks_of_not (decide_eq_false hp), if_neg hp]
    have hz : (0 : U64).toInt = 0 := rfl
    rw [hz]
    dsimp only
    omega

/-- **When a packet may leave**: both buckets can pay. -/
theorem allows_iff {len : U32} : s.allows now len = true ↔
    0 ≤ (s.toks now len).toInt ∧ 0 ≤ (s.ptoks now len).toInt := sle_or_iff

end Bounded

/-- A rate that is precomputed, or not set. -/
theorem price_lt_of {r : PschedRatecfg}
    (h : (∃ conf rate64, r = pschedRatecfgPrecompute conf rate64) ∨ r = ⟨0, 0, 0, 0, 0⟩)
    (len : U32) : (pschedL2tNs r len).toNat < 2 ^ 62 := by
  rcases h with ⟨conf, rate64, rfl⟩ | rfl
  · exact l2tNs_lt conf rate64 len
  · rw [toNat_l2tNs]
    simp

/-- The parameters that are decoded are bounded. -/
theorem decoded_bounds {σ : Type} {e : Env σ} {opt : List Byte} {p : TbfParms}
    (h : tbfDecode e.kernel opt = .ok p) : p.buffer.toNat < 2 ^ 62 ∧ p.mtu.toNat < 2 ^ 62 ∧
      (∀ len, (pschedL2tNs p.rate len).toNat < 2 ^ 62) ∧
      ∀ len, (pschedL2tNs p.peak len).toNat < 2 ^ 62 := by
  obtain ⟨tb, parms, -, -, hd⟩ := Parms.tbfDecode_ok h
  obtain ⟨mtu, hpeak, hmtu⟩ := hd.size
  have hrate : ∀ len, (pschedL2tNs p.rate len).toNat < 2 ^ 62 :=
    price_lt_of (Or.inl ⟨_, _, hd.rate⟩)
  have hbuffer : p.buffer.toNat < 2 ^ 62 := by
    rw [hd.buffer]
    cases Parms.burstOf tb with
    | none => exact e.ticks2ns_lt _
    | some burst => exact hrate burst
  have hcut : ∀ ticks, (Parms.cutTicks e.kernel ticks).toNat < 2 ^ 62 := fun ticks =>
    lt_of_le_of_lt (Parms.minU64_le_left _ _) (e.ticks2ns_lt ticks)
  have hmtu' : ∀ m : U64, m.toNat < 2 ^ 62 → mtu = m → p.mtu.toNat < 2 ^ 62 := fun m hm he => by
    rw [hmtu, he]
    split_ifs
    · exact hm
    · exact e.ticks2ns_lt _
  rcases Parms.tbfPeak_ok hpeak with ⟨-, hm, hz⟩ | ⟨prate64, hpk, -, hform⟩
  · exact ⟨hbuffer, hmtu' _ (hcut _) hm, hrate, price_lt_of (Or.inr hz)⟩
  · have hpeak : ∀ len, (pschedL2tNs p.peak len).toNat < 2 ^ 62 :=
      price_lt_of (Or.inl ⟨_, _, hpk⟩)
    rcases hform with ⟨pburst, -, -, hm⟩ | ⟨-, -, hm⟩
    · exact ⟨hbuffer, hmtu' _ (hpeak pburst) hm, hrate, hpeak⟩
    · exact ⟨hbuffer, hmtu' _ (hcut _) hm, hrate, hpeak⟩

/-! ### An enqueue leaves the buckets alone -/

/-- The parameters, the tokens and the time are the same. -/
structure SameBuckets {σ : Type} (s s' : TbfSched σ) : Prop where
  maxSize : s'.maxSize = s.maxSize
  buffer : s'.buffer = s.buffer
  mtu : s'.mtu = s.mtu
  rate : s'.rate = s.rate
  peak : s'.peak = s.peak
  tokens : s'.tokens = s.tokens
  ptokens : s'.ptokens = s.ptokens
  tC : s'.tC = s.tC

section Enqueue
variable {σ : Type} {s s' s'' : TbfSched σ}

theorem SameBuckets.refl (s : TbfSched σ) : SameBuckets s s :=
  ⟨rfl, rfl, rfl, rfl, rfl, rfl, rfl, rfl⟩

theorem SameBuckets.trans (h : SameBuckets s s') (h' : SameBuckets s' s'') : SameBuckets s s'' :=
  ⟨h'.1.trans h.1, h'.2.trans h.2, h'.3.trans h.3, h'.4.trans h.4, h'.5.trans h.5, h'.6.trans h.6,
    h'.7.trans h.7, h'.8.trans h.8⟩

theorem sameBuckets_segments (e : Env σ) (now : U64) : ∀ (segs : List Skb) (r : TbfSched σ × U32),
    SameBuckets r.1 (segs.foldl (tbfSegmentOne e now) r).1
  | [], r => SameBuckets.refl r.1
  | seg :: segs, r => by
    refine SameBuckets.trans ?_ (sameBuckets_segments e now segs _)
    unfold tbfSegmentOne
    split <;> exact ⟨rfl, rfl, rfl, rfl, rfl, rfl, rfl, rfl⟩

theorem sameBuckets_enqueue (e : Env σ) (now : U64) (s : TbfSched σ) (skb : Skb) :
    SameBuckets s (tbfEnqueue e now s skb).1 := by
  unfold tbfEnqueue
  split_ifs
  · unfold tbfSegment
    split
    · exact ⟨rfl, rfl, rfl, rfl, rfl, rfl, rfl, rfl⟩
    · exact (sameBuckets_segments e now _ (s, 0)).trans ⟨rfl, rfl, rfl, rfl, rfl, rfl, rfl, rfl⟩
  · exact ⟨rfl, rfl, rfl, rfl, rfl, rfl, rfl, rfl⟩
  · split <;> exact ⟨rfl, rfl, rfl, rfl, rfl, rfl, rfl, rfl⟩

theorem Bounded.of_same (hs : Bounded s) (h : SameBuckets s s') : Bounded s' where
  buffer := h.buffer ▸ hs.buffer
  mtu := h.mtu ▸ hs.mtu
  tokens := h.tokens ▸ hs.tokens
  ptokens := h.ptokens ▸ hs.ptokens
  price := h.rate ▸ hs.price
  pprice := h.peak ▸ hs.pprice

end Enqueue

/-! ### The code is a bucket -/

/-- The tokens and the time of the code as a bucket. -/
def bucket {σ : Type} (s : TbfSched σ) : Bucket ℤ := ⟨s.tokens.toNat, s.tC.toNat⟩

def pbucket {σ : Type} (s : TbfSched σ) : Bucket ℤ := ⟨s.ptokens.toNat, s.tC.toNat⟩

/-- A bucket without tokens. -/
def emptyBucket (now : U64) : Bucket ℤ := ⟨0, now.toNat⟩

/-- In every state of a run nothing is near an overflow, and the two buckets have made the moves
that are recorded. -/
structure Inv {σ : Type} (now : U64) (w : World σ) : Prop where
  bounded : Bounded w.q
  time : w.q.tC ≤ w.clock
  clock : w.clock.toNat < 2 ^ 62
  rate : run Lib.TokenBucket.step (emptyBucket now) (w.log.map Entry.move) = some (bucket w.q)
  peak : run Lib.TokenBucket.step (emptyBucket now) (w.log.map Entry.pmove) = some (pbucket w.q)

theorem inv_start {σ : Type} {inner : Option σ} {now : U64} (h : now.toNat < 2 ^ 62) :
    Inv now (World.start now inner : World σ) where
  bounded := by
    have hz : (0 : U64).toNat < 2 ^ 62 := by decide
    exact ⟨hz, hz, hz, hz, price_lt_of (Or.inr rfl), price_lt_of (Or.inr rfl)⟩
  time := BitVec.le_refl _
  clock := h
  rate := rfl
  peak := rfl

section Inv
variable {σ : Type} {e : Env σ} {refills : Bool} {start : U64} {w : World σ}

/-- What is not recorded leaves the buckets alone. -/
theorem Inv.quiet (h : Inv start w) {q : TbfSched σ} (hq : SameBuckets w.q q) {now : U64}
    (hc : w.clock ≤ now) (hnow : now.toNat < 2 ^ 62) :
    Inv start { w with q := q, clock := now } where
  bounded := h.bounded.of_same hq
  time := by rw [hq.tC]; exact BitVec.le_trans h.time hc
  clock := hnow
  rate := by rw [h.rate, bucket, bucket, hq.tokens, hq.tC]
  peak := by rw [h.peak, pbucket, pbucket, hq.ptokens, hq.tC]

/-- One move more. -/
theorem run_snoc {f : Entry → Move ℤ} {log : List Entry} {b0 b b' : Bucket ℤ} {x : Entry}
    (h : run Lib.TokenBucket.step b0 (log.map f) = some b)
    (hx : Lib.TokenBucket.step b (f x) = some b') :
    run Lib.TokenBucket.step b0 ((log ++ [x]).map f) = some b' := by
  rw [List.map_append]
  exact run_concat h hx

/-- **A packet that leaves** is paid for from both buckets. -/
theorem Inv.sent (h : Inv start w) {now : U64} (hc : w.clock ≤ now) (hnow : now.toNat < 2 ^ 62)
    {skb : Skb} (ha : w.q.allows now skb.len = true) {q : TbfSched σ} (hb : q.buffer = w.q.buffer)
    (hm : q.mtu = w.q.mtu) (hr : q.rate = w.q.rate) (hp : q.peak = w.q.peak) (ht : q.tC = now)
    (htok : q.tokens = w.q.toks now skb.len) (hptok : q.ptokens = w.q.ptoks now skb.len) :
    Inv start { q := q, clock := now, log := w.log ++ [record now w.q skb] } := by
  have htime := BitVec.le_trans h.time hc
  obtain ⟨hpos, hppos⟩ := allows_iff.mp ha
  have hlev := toInt_toks h.bounded htime hnow skb.len
  have hplev := toInt_ptoks_le h.bounded htime hnow skb.len
  have hnat := toNat_of_toInt_nonneg hpos
  have hpnat := toNat_of_toInt_nonneg hppos
  have hmin := min_le_left (w.q.buffer.toNat : ℤ)
    (w.q.tokens.toNat + ((now.toNat : ℤ) - w.q.tC.toNat))
  have hpmin := min_le_left (w.q.mtu.toNat : ℤ)
    (w.q.ptokens.toNat + ((now.toNat : ℤ) - w.q.tC.toNat))
  have hbuf := h.bounded.buffer
  have hmtu := h.bounded.mtu
  unfold Bucket.level at hlev hplev
  dsimp only at hlev hplev
  refine ⟨⟨hb ▸ hbuf, hm ▸ hmtu, ?_, ?_, hr ▸ h.bounded.price, hp ▸ h.bounded.pprice⟩,
    ht ▸ BitVec.le_refl _, hnow, run_snoc h.rate ?_, run_snoc h.peak ?_⟩
  · rw [htok]; omega
  · rw [hptok]; split_ifs at hplev <;> omega
  · rw [record, Entry.move, Lib.TokenBucket.step, bucket, if_pos]
    · rw [bucket, htok, ht]
    · refine ⟨by dsimp only; omega, ?_⟩
      unfold Bucket.level Sent.price
      dsimp only
      omega
  · rw [record, Entry.pmove, Lib.TokenBucket.step, pbucket, if_pos]
    · rw [pbucket, hptok, ht]
    · refine ⟨by dsimp only; omega, ?_⟩
      unfold Bucket.level Sent.pprice
      dsimp only
      omega

/-- **Buckets that are filled.** -/
theorem Inv.refill (h : Inv start w) {now t : U64} (hnow : now.toNat < 2 ^ 62) (ht : w.q.tC ≤ t)
    (htn : t ≤ now) {q : TbfSched σ} (hq : Bounded q) (hqt : q.tC = t) :
    Inv start { q := q, clock := now, log := w.log ++ [.refill t q.tokens q.ptokens] } where
  bounded := hq
  time := hqt ▸ htn
  clock := hnow
  rate := by
    have hle : w.q.tC.toNat ≤ t.toNat := ht
    refine run_snoc h.rate ?_
    rw [Entry.move, Lib.TokenBucket.step, bucket, if_pos ⟨by omega, by dsimp only; omega⟩, bucket,
      hqt]
  peak := by
    have hle : w.q.tC.toNat ≤ t.toNat := ht
    refine run_snoc h.peak ?_
    rw [Entry.pmove, Lib.TokenBucket.step, pbucket, if_pos ⟨by omega, by dsimp only; omega⟩,
      pbucket, hqt]

/-- **Every event keeps the invariant.** -/
theorem Inv.step (hf : e.ops.Faithful) (h : Inv start w) {ev : Event} (hc : Clocked w ev) :
    ∃ w', step e refills w ev = some w' ∧ Inv start w' := by
  obtain ⟨hle, hnow⟩ := hc
  cases ev with
  | enqueue now skb => exact ⟨_, rfl, h.quiet (sameBuckets_enqueue e now w.q skb) hle hnow⟩
  | dequeue now =>
    rcases tbfDequeue_cases hf now w.q with ⟨-, he⟩ | ⟨skb, -, ha, he⟩ | ⟨skb, -, -, he⟩
    · refine ⟨_, rfl, ?_⟩
      rw [he, Option.map_none, Option.toList_none, List.append_nil]
      refine h.quiet ?_ hle hnow
      exact ⟨rfl, rfl, rfl, rfl, rfl, rfl, rfl, rfl⟩
    · refine ⟨_, rfl, ?_⟩
      rw [he]
      exact h.sent hle hnow ha rfl rfl rfl rfl rfl rfl rfl
    · refine ⟨_, rfl, ?_⟩
      rw [he, Option.map_none, Option.toList_none, List.append_nil]
      refine h.quiet ?_ hle hnow
      exact ⟨rfl, rfl, rfl, rfl, rfl, rfl, rfl, rfl⟩
  | change now opt =>
    cases hch : tbfChange e refills w.q opt with
    | error err =>
      refine ⟨_, by rw [TbfShape.step, hch], ?_⟩
      exact h.quiet (SameBuckets.refl _) hle hnow
    | ok q =>
      obtain ⟨p, qdisc, hp, -, rfl⟩ := tbfChange_ok hch
      obtain ⟨hb, hm, hr, hpr⟩ := decoded_bounds hp
      refine ⟨_, by rw [TbfShape.step, hch], ?_⟩
      cases refills with
      | true =>
        exact h.refill hnow (BitVec.le_refl _) (BitVec.le_trans h.time hle)
          ⟨hb, hm, hb, hm, hr, hpr⟩ rfl
      | false =>
        simp only [Bool.false_eq_true, if_false, List.append_nil]
        exact ⟨⟨hb, hm, h.bounded.tokens, h.bounded.ptokens, hr, hpr⟩,
          BitVec.le_trans h.time hle, hnow, h.rate, h.peak⟩
  | reset now =>
    exact ⟨_, rfl, h.refill hnow (BitVec.le_trans h.time hle) (BitVec.le_refl _)
      ⟨h.bounded.buffer, h.bounded.mtu, h.bounded.buffer, h.bounded.mtu, h.bounded.price,
        h.bounded.pprice⟩ rfl⟩

end Inv

/-! ### Conformance -/

section Conformance
variable {σ : Type} {e : Env σ} {refills : Bool} {start : U64} {inner : Option σ}
  {evs : List Event} {w : World σ} {pre mid post : List Entry} {x y : Sent}

theorem inv_of_run (hf : e.ops.Faithful) (hstart : start.toNat < 2 ^ 62)
    (hclock : AllSteps (step e refills) Clocked (World.start start inner) evs)
    (hrun : run (step e refills) (World.start start inner) evs = some w) : Inv start w :=
  run_inv_of_allSteps (fun _ _ hI hc => hI.step hf hc) (inv_start hstart) hclock hrun

/-- The last payment of a run of a bucket gives its time. -/
theorem run_pay_last {b b' : Bucket ℤ} {ms : List (Move ℤ)} {now depth price left : ℤ}
    (h : run Lib.TokenBucket.step b (ms ++ [.pay now depth price left]) = some b') :
    b'.last = now := by
  obtain ⟨b1, -, h1⟩ := run_append_some h
  obtain ⟨b2, h2, h3⟩ := run_cons_some h1
  cases h3
  exact congrArg Bucket.last (step_pay h2).2.2

/-- A stretch of the record that begins and ends with a packet. -/
theorem stretch_conforms {f : Entry → Move ℤ} (depth : Sent → ℤ) {price left : Sent → ℤ}
    (hfs : ∀ z, f (.sent z) = .pay z.now.toNat (depth z) (price z) (left z)) {b b' : Bucket ℤ}
    (h : run Lib.TokenBucket.step b ((pre ++ .sent x :: mid ++ .sent y :: post).map f) = some b') :
    price x + paid (mid.map f) + price y ≤
      depth x + refilled (mid.map f) + ((y.now.toNat : ℤ) - x.now.toNat) := by
  have hsplit : (pre ++ .sent x :: mid ++ .sent y :: post).map f =
      pre.map f ++ (((f (.sent x) :: mid.map f) ++ [f (.sent y)]) ++ post.map f) := by simp
  rw [hsplit] at h
  obtain ⟨b1, -, h1⟩ := run_append_some h
  obtain ⟨b2, h2, -⟩ := run_append_some h1
  rw [hfs, hfs] at h2
  have hlast := run_pay_last h2
  rw [List.cons_append] at h2
  have hconf := run_conforms h2
  rw [hlast] at hconf
  have hpaid : paid (mid.map f ++ [Move.pay (y.now.toNat : ℤ) (depth y) (price y) (left y)]) =
      paid (mid.map f) + price y := by simp [paid, Move.price]
  have hgift : refilled (mid.map f ++ [Move.pay (y.now.toNat : ℤ) (depth y) (price y) (left y)]) =
      refilled (mid.map f) := by simp [refilled, Move.gift]
  rw [hpaid, hgift] at hconf
  linarith

/-- The record of a state obeys both buckets. -/
theorem Inv.conforms (h : Inv start w) (hlog : w.log = pre ++ .sent x :: mid ++ .sent y :: post) :
    x.price + paid (mid.map Entry.move) + y.price ≤ x.buffer.toNat +
        refilled (mid.map Entry.move) + ((y.now.toNat : ℤ) - x.now.toNat) ∧
      x.pprice + paid (mid.map Entry.pmove) + y.pprice ≤ x.mtu.toNat +
        refilled (mid.map Entry.pmove) + ((y.now.toNat : ℤ) - x.now.toNat) := by
  have hrate := h.rate
  have hpeak := h.peak
  rw [hlog] at hrate hpeak
  exact ⟨stretch_conforms (fun z => z.buffer.toNat) (fun _ => rfl) hrate,
    stretch_conforms (fun z => z.mtu.toNat) (fun _ => rfl) hpeak⟩

/-- **What is sent obeys the buckets**: the prices of the packets from one to another are at most
the depth of the bucket at the first one, what the bucket was filled with in between, and the time
from one to the other. This holds of both buckets, in every run of either version whose clock does
not go back and has 62 bits. In all of its states the tokens are computed without overflow. -/
theorem sent_conforms (hf : e.ops.Faithful) (hstart : start.toNat < 2 ^ 62)
    (hclock : AllSteps (step e refills) Clocked (World.start start inner) evs)
    (hrun : run (step e refills) (World.start start inner) evs = some w) :
    (∀ now, w.clock ≤ now → now.toNat < 2 ^ 62 → Exact w.q now) ∧
    ∀ {pre mid post x y}, w.log = pre ++ .sent x :: mid ++ .sent y :: post →
      x.price + paid (mid.map Entry.move) + y.price ≤ x.buffer.toNat +
          refilled (mid.map Entry.move) + ((y.now.toNat : ℤ) - x.now.toNat) ∧
        x.pprice + paid (mid.map Entry.pmove) + y.pprice ≤ x.mtu.toNat +
          refilled (mid.map Entry.pmove) + ((y.now.toNat : ℤ) - x.now.toNat) := by
  have hI := inv_of_run hf hstart hclock hrun
  refine ⟨fun now hle hnow => ?_, fun hlog => hI.conforms hlog⟩
  exact exact_of_bounded hI.bounded (BitVec.le_trans hI.time hle) hnow

end Conformance

/-- Two packets at a megabyte per second, with a burst of 2500 bytes. -/
def twoPackets : List Event :=
  [.change 5 (plainOptions 1000000 2500), .enqueue 10 ⟨1, 1500⟩, .enqueue 20 ⟨2, 1000⟩,
    .dequeue 2500000, .dequeue 3500000]

/-- The rate of this run. -/
def megabyte : PschedRatecfg := pschedRatecfgPrecompute ⟨0, 1, 0, 0, 0, 1000000⟩ 0

/-- A packet of this run. -/
def packetAt (now : U64) (skb : Skb) (tokens : U64) : Sent :=
  ⟨now, skb, megabyte, ⟨0, 0, 0, 0, 0⟩, 2500000, 0, tokens, 0⟩

theorem twoPackets_run (refills : Bool) :
    (run (step Env.plain refills) (World.start 0 none) twoPackets).isSome := by
  cases refills <;> decide +kernel

theorem sent_conforms_twoPackets :
    ∃ w, run (step Env.plain true) (World.start 0 none) twoPackets = some w ∧
      (packetAt 2500000 ⟨1, 1500⟩ 1000000).price + (packetAt 3500000 ⟨2, 1000⟩ 1000000).price ≤
        3500000 ∧ w.log = [.refill 0 2500000 0, .sent (packetAt 2500000 ⟨1, 1500⟩ 1000000),
          .sent (packetAt 3500000 ⟨2, 1000⟩ 1000000)] := by
  have hlog : ((run (step Env.plain true) (World.start 0 none) twoPackets).get
      (twoPackets_run _)).log = [.refill 0 2500000 0] ++
        .sent (packetAt 2500000 ⟨1, 1500⟩ 1000000) :: [] ++
        .sent (packetAt 3500000 ⟨2, 1000⟩ 1000000) :: [] := by decide +kernel
  refine ⟨_, (Option.some_get (twoPackets_run _)).symm, ?_, hlog⟩
  have h := ((sent_conforms bfifoOps_isQueue.faithful (by decide) (by decide +kernel)
    (Option.some_get (twoPackets_run true)).symm).2 hlog).1
  simpa [packetAt] using h

/-! ### Across changes of the rate -/

/-- No event of the run is a reset of the discipline. -/
def NoReset : Event → Prop
  | .reset _ => False
  | _ => True

section Patched
variable {σ : Type} {e : Env σ} {start : U64} {inner : Option σ} {evs : List Event} {w : World σ}
  {pre mid post : List Entry} {x y : Sent}

/-- Nothing but packets is recorded. -/
def OnlySent (l : List Entry) : Prop := ∀ z ∈ l, ∃ x, z = .sent x

theorem OnlySent.append {l l' : List Entry} (h : OnlySent l) (h' : OnlySent l') :
    OnlySent (l ++ l') := fun z hz => (List.mem_append.mp hz).elim (h z) (h' z)

/-- The version of this repository fills no bucket when it changes the rate. -/
theorem step_onlySent {w : World σ} {ev : Event} (hno : NoReset ev) (hw : OnlySent w.log) :
    ∃ w', step e false w ev = some w' ∧ OnlySent w'.log := by
  cases ev with
  | enqueue now skb => exact ⟨_, rfl, hw⟩
  | dequeue now =>
    refine ⟨_, rfl, hw.append fun z hz => ?_⟩
    rw [Option.mem_toList] at hz
    obtain ⟨skb, -, rfl⟩ := Option.map_eq_some_iff.mp hz
    exact ⟨_, rfl⟩
  | change now opt =>
    rw [step]
    split
    · exact ⟨_, rfl, hw⟩
    · exact ⟨_, rfl, hw.append (by simp [OnlySent])⟩
  | reset now => exact hno.elim

theorem run_onlySent (hno : ∀ ev ∈ evs, NoReset ev)
    (hrun : run (step e false) (World.start start inner) evs = some w) : OnlySent w.log := by
  obtain ⟨w', hw', hlog⟩ := run_total evs (fun ev hev w hw => step_onlySent (hno ev hev) hw)
    (by simp [OnlySent, World.start] : OnlySent (World.start start inner : World σ).log)
  rw [hrun] at hw'
  cases hw'
  exact hlog

theorem refilled_of_sent {f : Entry → Move ℤ} (hfs : ∀ z, (f (.sent z)).gift = 0) :
    ∀ {l : List Entry}, OnlySent l → refilled (l.map f) = 0
  | [], _ => rfl
  | z :: l, h => by
    obtain ⟨x, rfl⟩ := h z (by simp)
    rw [List.map_cons, refilled_cons, hfs, zero_add,
      refilled_of_sent hfs fun z' hz' => h z' (by simp [hz'])]

/-- Without refills, one depth and the time are all there is. -/
theorem Inv.conforms_of_onlySent (h : Inv start w) (honly : OnlySent w.log)
    (hlog : w.log = pre ++ .sent x :: mid ++ .sent y :: post) :
    x.price + paid (mid.map Entry.move) + y.price ≤
        x.buffer.toNat + ((y.now.toNat : ℤ) - x.now.toNat) ∧
      x.pprice + paid (mid.map Entry.pmove) + y.pprice ≤
        x.mtu.toNat + ((y.now.toNat : ℤ) - x.now.toNat) := by
  have hmid : OnlySent mid := fun z hz => honly z (by rw [hlog]; simp [hz])
  obtain ⟨hrate, hpeak⟩ := h.conforms hlog
  rw [refilled_of_sent (fun _ => rfl) hmid, add_zero] at hrate hpeak
  exact ⟨hrate, hpeak⟩

/-- **With the `tbf_change` of this repository the bound holds across changes of the rate**, however
often the rate, the depth and the peak rate are changed in a run without resets: what is sent is
paid for at the rate of the moment, and the time from one packet to another pays for it, but for one
depth. -/
theorem patched_conforms (hf : e.ops.Faithful) (hstart : start.toNat < 2 ^ 62)
    (hno : ∀ ev ∈ evs, NoReset ev)
    (hclock : AllSteps (step e false) Clocked (World.start start inner) evs)
    (hrun : run (step e false) (World.start start inner) evs = some w)
    (hlog : w.log = pre ++ .sent x :: mid ++ .sent y :: post) :
    x.price + paid (mid.map Entry.move) + y.price ≤
        x.buffer.toNat + ((y.now.toNat : ℤ) - x.now.toNat) ∧
      x.pprice + paid (mid.map Entry.pmove) + y.pprice ≤
        x.mtu.toNat + ((y.now.toNat : ℤ) - x.now.toNat) :=
  (inv_of_run hf hstart hclock hrun).conforms_of_onlySent (run_onlySent hno hrun) hlog

end Patched

theorem twoPackets_noReset : ∀ ev ∈ twoPackets, NoReset ev := by simp [twoPackets, NoReset]

theorem twoPackets_log : ((run (step Env.plain false) (World.start 0 none) twoPackets).get
    (twoPackets_run _)).log = [] ++ .sent (packetAt 2500000 ⟨1, 1500⟩ 1000000) :: [] ++
      .sent (packetAt 3500000 ⟨2, 1000⟩ 1000000) :: [] := by decide +kernel

theorem patched_conforms_twoPackets :
    ∃ w, run (step Env.plain false) (World.start 0 none) twoPackets = some w ∧
      (packetAt 2500000 ⟨1, 1500⟩ 1000000).price + (packetAt 3500000 ⟨2, 1000⟩ 1000000).price ≤
        3500000 := by
  refine ⟨_, (Option.some_get (twoPackets_run _)).symm, ?_⟩
  have h := (patched_conforms bfifoOps_isQueue.faithful (by decide) twoPackets_noReset
    (by decide +kernel) (Option.some_get (twoPackets_run false)).symm twoPackets_log).1
  simpa [packetAt] using h

/-! ### In bytes -/

section Bytes
variable {σ : Type} {e : Env σ} {start : U64} {inner : Option σ} {evs : List Event} {w : World σ}
  {pre mid post : List Entry} {x y : Sent} {r : PschedRatecfg}

/-- The bytes of a packet on the wire. -/
def Entry.wire (r : PschedRatecfg) : Entry → ℤ
  | .sent x => (wireLen r x.skb.len).toNat
  | .refill _ _ _ => 0

/-- The bytes of a stretch of the record. -/
def wireBytes (r : PschedRatecfg) (l : List Entry) : ℤ := (l.map (Entry.wire r)).sum

/-- The packet was sent at this rate, and takes at most two seconds. -/
def AtRate (r : PschedRatecfg) (x : Sent) : Prop :=
  x.rate = r ∧ (wireLen r x.skb.len).toNat ≤ 2 * r.rateBytesPs.toNat

theorem wire_le (hr : Precomputed r) (hrate : r.rateBytesPs ≠ 0) (hx : AtRate r x) :
    ((wireLen r x.skb.len).toNat : ℤ) * 1000000000 ≤ r.rateBytesPs.toNat * (x.price + 2) := by
  have h := lt_add_two_mul_rate hr hrate hx.2
  rw [Sent.price, hx.1]
  have h' : (((wireLen r x.skb.len).toNat * 1000000000 : ℕ) : ℤ) ≤
      (((pschedL2tNs r x.skb.len).toNat + 2) * r.rateBytesPs.toNat : ℕ) := by
    exact_mod_cast le_of_lt h
  push_cast at h'
  linarith

/-- The bytes of packets at one rate, from their prices. -/
theorem wireBytes_le (hr : Precomputed r) (hrate : r.rateBytesPs ≠ 0) : ∀ {l : List Entry},
    OnlySent l → (∀ z, .sent z ∈ l → AtRate r z) →
    wireBytes r l * 1000000000 ≤ r.rateBytesPs.toNat * (paid (l.map Entry.move) + 2 * l.length)
  | [], _, _ => by simp [wireBytes]
  | z :: l, ho, ha => by
    obtain ⟨x, rfl⟩ := ho z (by simp)
    have hx := wire_le hr hrate (ha x (by simp))
    have hl := wireBytes_le hr hrate (fun z' hz' => ho z' (List.mem_cons_of_mem _ hz'))
      fun z' hz' => ha z' (List.mem_cons_of_mem _ hz')
    have hsum : wireBytes r (.sent x :: l) = (wireLen r x.skb.len).toNat + wireBytes r l :=
      List.sum_cons
    have hpaid : paid ((Entry.sent x :: l).map Entry.move) = x.price + paid (l.map Entry.move) :=
      paid_cons _ _
    rw [hsum, hpaid, List.length_cons]
    push_cast
    linarith

/-- **The packetised definition of a token bucket**, as the comment of `sch_tbf.c` states it: of
packets that are sent at one rate `R` by a bucket with a burst of `B` bytes, in a run without resets
and none of them longer than two seconds, those from one to another have at most `B` bytes and what
the rate makes of the time between them. Each packet may gain two nanoseconds by rounding. -/
theorem patched_bytes (hf : e.ops.Faithful) (hstart : start.toNat < 2 ^ 62)
    (hno : ∀ ev ∈ evs, NoReset ev)
    (hclock : AllSteps (step e false) Clocked (World.start start inner) evs)
    (hrun : run (step e false) (World.start start inner) evs = some w)
    (hlog : w.log = pre ++ .sent x :: mid ++ .sent y :: post) {conf : TcRatespec} {rate64 : U64}
    (hr : pschedRatecfgPrecompute conf rate64 = r) (hrate : r.rateBytesPs ≠ 0) {burst : U32}
    (hbuf : x.buffer = pschedL2tNs r burst)
    (hat : ∀ z, .sent z ∈ .sent x :: mid ++ [.sent y] → AtRate r z) :
    wireBytes r (.sent x :: mid ++ [.sent y]) * 1000000000 ≤
      (wireLen r burst).toNat * 1000000000 + r.rateBytesPs.toNat *
        ((y.now.toNat : ℤ) - x.now.toNat + 2 * (mid.length + 2)) := by
  have hpre : Precomputed r := hr ▸ precomputed conf rate64 (hr ▸ hrate)
  have hsent := run_onlySent hno hrun
  have honly : OnlySent (.sent x :: mid ++ [.sent y]) := fun z hz =>
    hsent z (by rw [hlog]; simp at hz ⊢; tauto)
  have hbytes := wireBytes_le hpre hrate honly hat
  have hpaid : paid ((Entry.sent x :: mid ++ [Entry.sent y]).map Entry.move) =
      x.price + paid (mid.map Entry.move) + y.price := by
    simp [paid, Entry.move, Move.price, add_assoc]
  have hconf := ((inv_of_run hf hstart hclock hrun).conforms_of_onlySent hsent hlog).1
  have hdepth : (r.rateBytesPs.toNat : ℤ) * x.buffer.toNat ≤
      (wireLen r burst).toNat * 1000000000 := by
    rw [hbuf, mul_comm]
    exact_mod_cast l2tNs_mul_rate_le hpre burst
  have hlen : ((Entry.sent x :: mid ++ [Entry.sent y]).length : ℤ) = mid.length + 2 := by
    simp
    ring
  rw [hpaid, hlen] at hbytes
  have hmul := mul_le_mul_of_nonneg_left hconf (Int.natCast_nonneg r.rateBytesPs.toNat)
  linarith

end Bytes

theorem patched_bytes_twoPackets :
    ∃ w, run (step Env.plain false) (World.start 0 none) twoPackets = some w ∧
      wireBytes megabyte (.sent (packetAt 2500000 ⟨1, 1500⟩ 1000000) :: [] ++
          [.sent (packetAt 3500000 ⟨2, 1000⟩ 1000000)]) * 1000000000 ≤
        (wireLen megabyte 2500).toNat * 1000000000 + megabyte.rateBytesPs.toNat *
          (((3500000 : U64).toNat : ℤ) - (2500000 : U64).toNat + 2 * ((0 : ℕ) + 2)) := by
  refine ⟨_, (Option.some_get (twoPackets_run _)).symm, ?_⟩
  have hat : ∀ z, Entry.sent z ∈ .sent (packetAt 2500000 ⟨1, 1500⟩ 1000000) :: [] ++
      [.sent (packetAt 3500000 ⟨2, 1000⟩ 1000000)] → AtRate megabyte z := by
    intro z hz
    simp only [List.cons_append, List.nil_append, List.mem_cons, Entry.sent.injEq,
      List.not_mem_nil, or_false] at hz
    rcases hz with rfl | rfl <;> exact ⟨rfl, by decide +kernel⟩
  exact patched_bytes bfifoOps_isQueue.faithful (by decide) twoPackets_noReset
    (by decide +kernel) (Option.some_get (twoPackets_run false)).symm twoPackets_log rfl
    (by decide +kernel) (by decide +kernel) hat

end DynBandwidth.Sched.TbfShape
