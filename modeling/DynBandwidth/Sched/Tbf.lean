import DynBandwidth.Lib.Signed
import DynBandwidth.Sched.Parms
import DynBandwidth.Sched.Qdisc

/-! # The token bucket of the kernel

`sch_tbf.c`, with any discipline inside it. Time and tokens are nanoseconds in 64 bits with a sign.
There are two versions of `tbf_change`: the one of the kernel fills both buckets when it installs
new parameters, the one of this repository leaves the tokens as they are, so that a driver can
change the rate often. They are one definition here, with a flag.

`tbfDequeue_cases` says what a dequeue can do. -/

namespace DynBandwidth.Sched.Tbf

open DynBandwidth.Lib.Bytes DynBandwidth.Lib.Signed
open DynBandwidth.Tbf.Uapi DynBandwidth.Tbf.Kernel
open DynBandwidth.Sched.Rates DynBandwidth.Sched.Parms DynBandwidth.Sched.Qdisc
open DynBandwidth.Reorder.Header (U8 U16 U32 U64)

/-- The rest of the kernel: the clock of the schedulers, the rate tables that other disciplines
hold, segmentation, and the discipline inside. -/
structure Env (σ : Type) where
  ticks2ns : U32 → U64
  ticks2ns_lt : ∀ ticks, (ticks2ns ticks).toNat < 2 ^ 62
  rtabListed : TcRatespec → List Byte → Bool
  gso : Gso
  ops : QdiscOps σ

/-- What `tbf_change` decodes its options with. -/
def Env.kernel {σ : Type} (e : Env σ) : TbfKernel :=
  ⟨e.ticks2ns, pschedL2tNs, e.rtabListed, fun _ _ => 0, fun _ => .ok 0⟩

/-- A kernel whose tick is 64 nanoseconds, without segmentation, and with the byte queue. -/
def Env.plain : Env Fifo where
  ticks2ns ticks := ticks.setWidth 64 <<< 6
  ticks2ns_lt ticks := by
    have := ticks.isLt
    rw [BitVec.toNat_shiftLeft, BitVec.toNat_setWidth, Nat.shiftLeft_eq]
    omega
  rtabListed _ _ := false
  gso := ⟨fun _ => false, fun _ _ => false, fun _ => []⟩
  ops := bfifoOps

/-- `struct tbf_sched_data`, with the counters of its `struct Qdisc`. The discipline inside is
`none` for `noop_qdisc`. -/
structure TbfSched (σ : Type) where
  limit : U32
  maxSize : U32
  buffer : U64
  mtu : U64
  rate : PschedRatecfg
  peak : PschedRatecfg
  tokens : U64
  ptokens : U64
  tC : U64
  qdisc : Option σ
  watchdog : Option U64
  qlen : U32
  backlog : U32
  drops : U32
  overlimits : U32

section Model
variable {σ : Type} (e : Env σ)

/-! ### Enqueue -/

/-- `qdisc_drop`. -/
def TbfSched.drop (s : TbfSched σ) : TbfSched σ := { s with drops := s.drops + 1 }

/-- One segment goes into the discipline inside; the second value counts those that got in. -/
def tbfSegmentOne (now : U64) (r : TbfSched σ × U32) (seg : Skb) : TbfSched σ × U32 :=
  match qdiscEnqueue e.ops now r.1.qdisc seg with
  | (qdisc, .success) => ({ r.1 with qdisc := qdisc }, r.2 + 1)
  | (qdisc, _) => ({ r.1.drop with qdisc := qdisc }, r.2)

/-- `tbf_segment`. Its last line tells the disciplines above about the segments; the token bucket
itself counts them, but not their bytes. -/
def tbfSegment (now : U64) (s : TbfSched σ) (skb : Skb) : TbfSched σ × Xmit :=
  match e.gso.segment skb with
  | [] => (s.drop, .drop)
  | segs =>
    let r := segs.foldl (tbfSegmentOne e now) (s, 0)
    ({ r.1 with qlen := r.1.qlen + r.2 }, if 0 < r.2 then .success else .drop)

/-- `tbf_enqueue`. -/
def tbfEnqueue (now : U64) (s : TbfSched σ) (skb : Skb) : TbfSched σ × Xmit :=
  if s.maxSize < skb.len then
    if e.gso.isGso skb && e.gso.validateMacLen skb s.maxSize then tbfSegment e now s skb
    else (s.drop, .drop)
  else
    match qdiscEnqueue e.ops now s.qdisc skb with
    | (qdisc, .success) =>
      ({ s with qdisc := qdisc, backlog := s.backlog + skb.len, qlen := s.qlen + 1 }, .success)
    | (qdisc, ret) => ({ s.drop with qdisc := qdisc }, ret)

/-- A packet that `tbf_enqueue` hands to `tbf_segment`. -/
def segmented (s : TbfSched σ) (skb : Skb) : Bool :=
  s.maxSize < skb.len && (e.gso.isGso skb && e.gso.validateMacLen skb s.maxSize)

/-- What becomes of a packet: its segments, nothing, or itself. -/
def offered (s : TbfSched σ) (skb : Skb) : List Skb :=
  if segmented e s skb then e.gso.segment skb else if s.maxSize < skb.len then [] else [skb]

/-! ### Dequeue -/

/-- `tbf_peak_present`. -/
def TbfSched.peakPresent (s : TbfSched σ) : Bool := s.peak.rateBytesPs ≠ 0

/-- `toks` of `tbf_dequeue`: the tokens that would be left after a packet. -/
def TbfSched.toks (s : TbfSched σ) (now : U64) (len : U32) : U64 :=
  capS64 (minS64 (now - s.tC) s.buffer + s.tokens) s.buffer - pschedL2tNs s.rate len

/-- `ptoks` of `tbf_dequeue`: the same for the peak rate, if there is one. The time that has passed
is cut to the depth of the other bucket. -/
def TbfSched.ptoks (s : TbfSched σ) (now : U64) (len : U32) : U64 :=
  if s.peakPresent then
    capS64 (minS64 (now - s.tC) s.buffer + s.ptokens) s.mtu - pschedL2tNs s.peak len
  else 0

/-- `(toks|ptoks) >= 0`. -/
def TbfSched.allows (s : TbfSched σ) (now : U64) (len : U32) : Bool :=
  (0 : U64).sle (s.toks now len ||| s.ptoks now len)

/-- `tbf_dequeue`. -/
def tbfDequeue (now : U64) (s : TbfSched σ) : TbfSched σ × Option Skb :=
  match qdiscPeek e.ops now s.qdisc with
  | (qdisc, none) => ({ s with qdisc := qdisc }, none)
  | (qdisc, some skb) =>
    if s.allows now skb.len then
      match qdiscDequeuePeeked e.ops now qdisc with
      | (qdisc, none) => ({ s with qdisc := qdisc }, none)
      | (qdisc, some skb') =>
        ({ s with
          qdisc := qdisc
          tC := now
          tokens := s.toks now skb.len
          ptokens := s.ptoks now skb.len
          backlog := s.backlog - skb'.len
          qlen := s.qlen - 1 }, some skb')
    else
      ({ s with
        qdisc := qdisc
        watchdog := some (now + maxS64 (-s.toks now skb.len) (-s.ptoks now skb.len))
        overlimits := s.overlimits + 1 }, none)

/-! ### Configuration -/

/-- The discipline inside gets the limit, or one is created. -/
def tbfInner (limit : U32) : Option σ → Except ℤ (Option σ)
  | some c => (e.ops.fifoSetLimit c limit).map some
  | none => if 0 < limit then (e.ops.fifoCreateDflt limit).map some else .ok none

/-- `tbf_change`; the flag says whether the buckets are filled. -/
def tbfChange (refills : Bool) (s : TbfSched σ) (opt : List Byte) : Except ℤ (TbfSched σ) := do
  let p ← tbfDecode e.kernel opt
  let qdisc ← tbfInner e p.limit s.qdisc
  return { s with
    qdisc := qdisc
    limit := p.limit
    mtu := p.mtu
    maxSize := p.maxSize.setWidth 32
    buffer := p.buffer
    tokens := if refills then p.buffer else s.tokens
    ptokens := if refills then p.mtu else s.ptokens
    rate := p.rate
    peak := p.peak }

/-- `tbf_reset`. -/
def tbfReset (now : U64) (s : TbfSched σ) : TbfSched σ :=
  { s with
    qdisc := s.qdisc.map e.ops.reset
    backlog := 0
    qlen := 0
    tC := now
    tokens := s.buffer
    ptokens := s.mtu
    watchdog := none }

/-- The memory of a new token bucket is zero. `tbf_init` sets the time, and calls `tbf_change`,
which is the first event of a run. -/
def tbfZero (now : U64) : TbfSched σ :=
  ⟨0, 0, 0, 0, ⟨0, 0, 0, 0, 0⟩, ⟨0, 0, 0, 0, 0⟩, 0, 0, now, none, none, 0, 0, 0, 0⟩

end Model

/-! ### What the operations do -/

section Cases
variable {σ : Type} {e : Env σ} {s : TbfSched σ} {now : U64}

theorem segments_qdisc : ∀ (segs : List Skb) (r : TbfSched σ × U32),
    (segs.foldl (tbfSegmentOne e now) r).1.qdisc =
      segs.foldl (fun q x => (qdiscEnqueue e.ops now q x).1) r.1.qdisc
  | [], _ => rfl
  | seg :: segs, r => by
    have hone : (tbfSegmentOne e now r seg).1.qdisc = (qdiscEnqueue e.ops now r.1.qdisc seg).1 := by
      unfold tbfSegmentOne
      split <;> rename_i heq <;> rw [heq]
    rw [List.foldl_cons, segments_qdisc segs, hone, List.foldl_cons]

/-- **What an arrival does inside**: the packets that are offered are enqueued, one after the
other. -/
theorem tbfEnqueue_qdisc (s : TbfSched σ) (skb : Skb) : (tbfEnqueue e now s skb).1.qdisc =
    (offered e s skb).foldl (fun q x => (qdiscEnqueue e.ops now q x).1) s.qdisc := by
  unfold tbfEnqueue
  by_cases hbig : s.maxSize < skb.len
  · cases hgso : e.gso.isGso skb && e.gso.validateMacLen skb s.maxSize with
    | false =>
      have hoff : offered e s skb = [] := by
        rw [offered, segmented, hgso, Bool.and_false, if_neg Bool.false_ne_true, if_pos hbig]
      rw [if_pos hbig, if_neg Bool.false_ne_true, hoff]
      rfl
    | true =>
      have hoff : offered e s skb = e.gso.segment skb := by
        rw [offered, segmented, hgso, decide_eq_true hbig]
        rfl
      rw [if_pos hbig, if_pos rfl, hoff, tbfSegment]
      split
      · rename_i hnil
        rw [hnil]
        rfl
      · exact segments_qdisc _ (s, 0)
  · have hoff : offered e s skb = [skb] := by
      rw [offered, segmented, decide_eq_false hbig, Bool.false_and, if_neg Bool.false_ne_true,
        if_neg hbig]
    rw [if_neg hbig, hoff]
    split <;> rename_i heq <;> rw [List.foldl_cons, heq] <;> rfl

/-- What every enqueue inside keeps, an arrival keeps. -/
theorem tbfEnqueue_inner {P : Option σ → Prop} {skb : Skb}
    (hP : ∀ q x, x ∈ offered e s skb → P q → P (qdiscEnqueue e.ops now q x).1) (h : P s.qdisc) :
    P (tbfEnqueue e now s skb).1.qdisc := by
  rw [tbfEnqueue_qdisc]
  exact List.foldlRecOn _ _ h fun q hq x hx => hP q x hx hq

/-- **What a dequeue can do**: there is no packet, the packet is sent and paid for, or it stays and
the watchdog is set. -/
theorem tbfDequeue_cases (hf : e.ops.Faithful) (now : U64) (s : TbfSched σ) :
    ((qdiscPeek e.ops now s.qdisc).2 = none ∧
      tbfDequeue e now s = ({ s with qdisc := (qdiscPeek e.ops now s.qdisc).1 }, none)) ∨
    (∃ skb, (qdiscPeek e.ops now s.qdisc).2 = some skb ∧ s.allows now skb.len = true ∧
      tbfDequeue e now s = ({ s with
        qdisc := (qdiscDequeuePeeked e.ops now (qdiscPeek e.ops now s.qdisc).1).1
        tC := now
        tokens := s.toks now skb.len
        ptokens := s.ptoks now skb.len
        backlog := s.backlog - skb.len
        qlen := s.qlen - 1 }, some skb)) ∨
    (∃ skb, (qdiscPeek e.ops now s.qdisc).2 = some skb ∧ s.allows now skb.len = false ∧
      tbfDequeue e now s = ({ s with
        qdisc := (qdiscPeek e.ops now s.qdisc).1
        watchdog := some (now + maxS64 (-s.toks now skb.len) (-s.ptoks now skb.len))
        overlimits := s.overlimits + 1 }, none)) := by
  unfold tbfDequeue
  cases hq : s.qdisc with
  | none => exact Or.inl ⟨rfl, rfl⟩
  | some c =>
    cases hp : (e.ops.peek now c).2 with
    | none => simp [qdiscPeek, hp]
    | some skb =>
      have hd := hf now c skb hp
      cases ha : s.allows now skb.len <;> simp [qdiscPeek, qdiscDequeuePeeked, hp, hd, ha]

/-- **What a change does**: the parameters are those decoded, the time stays, and the tokens stay or
are filled up. -/
theorem tbfChange_ok {refills : Bool} {opt : List Byte} {s' : TbfSched σ}
    (h : tbfChange e refills s opt = .ok s') : ∃ p qdisc, tbfDecode e.kernel opt = .ok p ∧
      tbfInner e p.limit s.qdisc = .ok qdisc ∧ s' = { s with
        qdisc := qdisc
        limit := p.limit
        mtu := p.mtu
        maxSize := p.maxSize.setWidth 32
        buffer := p.buffer
        tokens := if refills then p.buffer else s.tokens
        ptokens := if refills then p.mtu else s.ptokens
        rate := p.rate
        peak := p.peak } := by
  unfold tbfChange at h
  cases hp : tbfDecode e.kernel opt with
  | error err => simp [hp, bind, Except.bind] at h
  | ok p =>
    cases hq : tbfInner e p.limit s.qdisc with
    | error err => simp [hp, hq, bind, Except.bind] at h
    | ok qdisc =>
      simp only [hp, hq, bind, Except.bind] at h
      cases h
      exact ⟨p, qdisc, rfl, hq, rfl⟩

end Cases

end DynBandwidth.Sched.Tbf
