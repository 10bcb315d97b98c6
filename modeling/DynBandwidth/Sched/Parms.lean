import DynBandwidth.Sched.Rates

/-! # The parameters of a token bucket

`tbf_change` accepts options of several forms: the depth of the bucket and of the peak bucket may be
given in bytes or as a time, with or without a peak rate. In all of them the greatest size that it
lets into the queue is the size of a packet that both buckets can pay for (`admitted_fits`). A
greater one would stay at the head of the queue for ever. -/

namespace DynBandwidth.Sched.Parms

open DynBandwidth.Lib.Bytes DynBandwidth.Lib.Attributes
open DynBandwidth.Tbf.Uapi DynBandwidth.Tbf.Kernel
open DynBandwidth.Sched.Rates
open DynBandwidth.Reorder.Header (U8 U16 U32 U64)

/-- The depth in bytes, if it is given. -/
def burstOf (tb : Tb) : Option U32 := (tb tcaTbfBurst).map nlaGetU32

def pburstOf (tb : Tb) : Option U32 := (tb tcaTbfPburst).map nlaGetU32

/-- A time in ticks, cut to 32 bits. -/
def cutTicks (k : TbfKernel) (ticks : U32) : U64 := minU64 (k.ticks2ns ticks) 0xFFFFFFFF

/-- The greatest size as far as the rate is concerned. -/
def sizeOf (k : TbfKernel) (tb : Tb) (qopt : TcTbfQopt) (rate : PschedRatecfg) : U64 :=
  match burstOf tb with
  | some burst => burst.setWidth 64
  | none => minU64 (pschedNsT2l rate (cutTicks k qopt.buffer)) 0xFFFFFFFF

/-- What `tbf_change` computes from a table of attributes. -/
structure Decoded (k : TbfKernel) (tb : Tb) (qopt : TcTbfQopt) (p : TbfParms) : Prop where
  limit : p.limit = qopt.limit
  rate : p.rate = pschedRatecfgPrecompute qopt.rate (((tb tcaTbfRate64).map nlaGetU64).getD 0)
  size : ∃ mtu, tbfPeak k tb qopt p.rate (sizeOf k tb qopt p.rate) (cutTicks k qopt.mtu) =
      .ok (p.maxSize, mtu, p.peak) ∧
    p.mtu = if (tb tcaTbfPburst).isSome then mtu else k.ticks2ns qopt.mtu
  ne_zero : p.maxSize ≠ 0
  buffer : p.buffer = ((burstOf tb).map (k.l2tNs p.rate)).getD (k.ticks2ns qopt.buffer)

/-- **What is accepted.** -/
theorem tbfDecode_ok {k : TbfKernel} {opt : List Byte} {p : TbfParms}
    (h : tbfDecode k opt = .ok p) : ∃ tb parms, nlaParse tcaTbfMax tbfPolicy opt = .ok tb ∧
      tb tcaTbfParms = some parms ∧ Decoded k tb (awareQopt k tb (TcTbfQopt.ofBytes parms)) p := by
  unfold tbfDecode at h
  cases htb : nlaParse tcaTbfMax tbfPolicy opt with
  | error e => simp [htb, bind, Except.bind] at h
  | ok tb =>
    simp only [htb, bind, Except.bind] at h
    cases hparms : tb tcaTbfParms with
    | none => simp [hparms] at h
    | some parms =>
      simp only [hparms] at h
      split at h
      · cases h
      · next v hv =>
        obtain ⟨size, mtu, peak⟩ := v
        by_cases h0 : size = 0
        · rw [if_pos h0] at h
          cases h
        · rw [if_neg h0] at h
          cases h
          exact ⟨tb, parms, rfl, hparms, rfl, rfl, ⟨mtu, hv, rfl⟩, h0, rfl⟩

/-- The forms of the peak rate. -/
theorem tbfPeak_ok {k : TbfKernel} {tb : Tb} {qopt : TcTbfQopt} {rate peak : PschedRatecfg}
    {size size' mtu mtu' : U64} (h : tbfPeak k tb qopt rate size mtu = .ok (size', mtu', peak)) :
    (size' = size ∧ mtu' = mtu ∧ peak = ⟨0, 0, 0, 0, 0⟩) ∨
    (∃ prate64, peak = pschedRatecfgPrecompute qopt.peakrate prate64 ∧
      rate.rateBytesPs < peak.rateBytesPs ∧
      ((∃ pburst, pburstOf tb = some pburst ∧
        size' = minU64 ((size.setWidth 32).setWidth 64) (pburst.setWidth 64) ∧
        mtu' = k.l2tNs peak pburst) ∨
      (pburstOf tb = none ∧ size' = minU64 size (pschedNsT2l peak mtu) ∧ mtu' = mtu))) := by
  unfold tbfPeak at h
  by_cases hrate : qopt.peakrate.rate ≠ 0
  · right
    rw [if_pos hrate] at h
    dsimp only at h
    split at h
    · cases h
    · next hle =>
      have hgt := BitVec.not_le.mp hle
      cases hp : (tb tcaTbfPburst).map nlaGetU32 with
      | some pburst =>
        rw [hp] at h
        cases h
        exact ⟨_, rfl, hgt, Or.inl ⟨pburst, hp, rfl, rfl⟩⟩
      | none =>
        rw [hp] at h
        cases h
        exact ⟨_, rfl, hgt, Or.inr ⟨hp, rfl, rfl⟩⟩
  · left
    rw [if_neg hrate] at h
    cases h
    exact ⟨rfl, rfl, rfl⟩

/-! ### Smaller numbers -/

theorem minU64_le_left (a b : U64) : minU64 a b ≤ a := by
  unfold minU64
  split_ifs with h
  · exact BitVec.le_refl a
  · exact BitVec.not_lt.mp h

theorem minU64_le_right (a b : U64) : minU64 a b ≤ b := by
  unfold minU64
  split_ifs with h
  · exact BitVec.le_of_lt h
  · exact BitVec.le_refl b

theorem ne_zero_of_le {a b : U64} (h : a ≤ b) (ha : a ≠ 0) : b ≠ 0 := fun hb => by
  subst hb
  exact ha (BitVec.eq_of_toNat_eq (Nat.le_zero.mp h))

theorem setWidth_le_iff {len : U32} {size : U64} :
    len.setWidth 64 ≤ size ↔ len.toNat ≤ size.toNat := by
  rw [BitVec.le_def, BitVec.toNat_setWidth_of_le (by omega)]

/-! ### The buckets can pay -/

/-- The depths that are given in bytes have no more than 32 bits with their overhead. -/
structure BurstsFit (tb : Tb) (p : TbfParms) : Prop where
  burst : ∀ b, burstOf tb = some b → wireNat p.rate b.toNat < 2 ^ 32
  pburst : ∀ b, pburstOf tb = some b → wireNat p.peak b.toNat < 2 ^ 32

section Fits
variable {k : TbfKernel} {tb : Tb} {qopt : TcTbfQopt} {p : TbfParms} {len : U32}

/-- A size found for a time, cut to 32 bits, is one that the time pays for. -/
theorem l2tNs_le_cutTicks {r : PschedRatecfg} (hr : Precomputed r) (hrate : r.rateBytesPs ≠ 0)
    {ticks : U32} {size : U64} (hsize : size ≤ pschedNsT2l r (cutTicks k ticks)) (h0 : size ≠ 0)
    (hlen : len.setWidth 64 ≤ size) : pschedL2tNs r len ≤ k.ticks2ns ticks := by
  have ht := l2tNs_le_of_t2l hr hrate (ne_zero_of_le hsize h0)
    (setWidth_le_iff.mp (BitVec.le_trans hlen hsize))
  exact BitVec.le_trans ht (minU64_le_left _ _)

/-- The bucket of the rate. -/
theorem rate_fits (hk : k.l2tNs = pschedL2tNs) (h : Decoded k tb qopt p) (hfit : BurstsFit tb p)
    (hrate : p.rate.rateBytesPs ≠ 0) (hle : p.maxSize ≤ sizeOf k tb qopt p.rate)
    (hlen : len.setWidth 64 ≤ p.maxSize) : pschedL2tNs p.rate len ≤ p.buffer := by
  have hpre : Precomputed p.rate := by
    rw [h.rate] at hrate ⊢
    exact precomputed _ _ hrate
  rw [h.buffer]
  unfold sizeOf at hle
  cases hb : burstOf tb with
  | some burst =>
    rw [hb] at hle
    have hlen' : len ≤ burst := by
      have := setWidth_le_iff.mp (BitVec.le_trans hlen hle)
      rwa [BitVec.toNat_setWidth_of_le (by omega)] at this
    rw [Option.map_some, Option.getD_some, hk]
    exact l2tNs_mono hlen' (hfit.burst burst hb)
  | none =>
    rw [hb] at hle
    exact l2tNs_le_cutTicks hpre hrate (BitVec.le_trans hle (minU64_le_left _ _)) h.ne_zero hlen

end Fits

/-- **What is let in can be paid for**: the price of a packet of an admitted size is at most the
depth of each of the buckets, in all forms of the options, if there is a rate and the bursts have 32
bits on the wire. -/
theorem admitted_fits {k : TbfKernel} (hk : k.l2tNs = pschedL2tNs) {opt : List Byte} {p : TbfParms}
    {tb : Tb} (htb : nlaParse tcaTbfMax tbfPolicy opt = .ok tb) (h : tbfDecode k opt = .ok p)
    (hfit : BurstsFit tb p) (hrate : p.rate.rateBytesPs ≠ 0) {len : U32}
    (hlen : len.setWidth 64 ≤ p.maxSize) : pschedL2tNs p.rate len ≤ p.buffer ∧
      (p.peak.rateBytesPs ≠ 0 → pschedL2tNs p.peak len ≤ p.mtu) := by
  obtain ⟨tb', parms, htb', -, hd⟩ := tbfDecode_ok h
  cases htb.symm.trans htb'
  obtain ⟨mtu, hpeak, hmtu⟩ := hd.size
  rcases tbfPeak_ok hpeak with ⟨hsize, -, hz⟩ | ⟨prate64, hpk, hgt, hform⟩
  · refine ⟨rate_fits hk hd hfit hrate (hsize ▸ BitVec.le_refl _) hlen, fun hne => ?_⟩
    rw [hz] at hne
    exact absurd rfl hne
  · have hne : p.peak.rateBytesPs ≠ 0 := fun h0 => by
      rw [h0] at hgt
      exact absurd hgt (Nat.not_lt_zero _)
    have hpre : Precomputed p.peak := hpk ▸ precomputed _ _ (hpk ▸ hne)
    rcases hform with ⟨pburst, hpb, hsize, hm⟩ | ⟨hpb, hsize, hm⟩
    · have hcut : ∀ size : U64, (size.setWidth 32).setWidth 64 ≤ size := fun size => by
        rw [setWidth_le_iff, BitVec.toNat_setWidth]
        exact Nat.mod_le _ _
      refine ⟨rate_fits hk hd hfit hrate ?_ hlen, fun _ => ?_⟩
      · exact hsize ▸ BitVec.le_trans (minU64_le_left _ _) (hcut _)
      · have hlen' : len ≤ pburst := by
          have hle := BitVec.le_trans (hsize ▸ hlen) (minU64_le_right _ _)
          have := setWidth_le_iff.mp hle
          rwa [BitVec.toNat_setWidth_of_le (by omega)] at this
        rw [hmtu, if_pos (by simpa [pburstOf] using congrArg Option.isSome hpb), hm, hk]
        exact l2tNs_mono hlen' (hfit.pburst pburst hpb)
    · refine ⟨rate_fits hk hd hfit hrate (hsize ▸ minU64_le_left _ _) hlen, fun _ => ?_⟩
      rw [hmtu, if_neg (by simpa [pburstOf] using congrArg Option.isSome hpb)]
      exact l2tNs_le_cutTicks hpre hne (hsize ▸ minU64_le_right _ _) hd.ne_zero hlen

/-- Options with a rate and a burst, and a limit of 100000 bytes. -/
def plainOptions (rate burst : U32) : List Byte :=
  Attr.frame ⟨tcaTbfParms, (TcTbfQopt.mk ⟨0, 1, 0, 0, 0, rate⟩ ⟨0, 0, 0, 0, 0, 0⟩ 100000 0
    0).toBytes⟩ ++ Attr.frame ⟨tcaTbfBurst, bytes 4 burst.toNat⟩

/-- A kernel whose tick is 64 nanoseconds. -/
def plainKernel : TbfKernel :=
  ⟨fun ticks => ticks.setWidth 64 <<< 6, pschedL2tNs, fun _ _ => false, fun _ _ => 0,
    fun _ => .ok 0⟩

theorem plainOptions_decoded :
    ∃ p, tbfDecode plainKernel (plainOptions 1000000 2500) = .ok p ∧ p.rate.rateBytesPs ≠ 0 ∧
      wireNat p.rate 2500 < 2 ^ 32 ∧ p.maxSize = 2500 := by
  have h : (tbfDecode plainKernel (plainOptions 1000000 2500)).toOption.any (fun p =>
      p.rate.rateBytesPs ≠ 0 ∧ wireNat p.rate 2500 < 2 ^ 32 ∧ p.maxSize = 2500) = true := by
    decide +kernel
  cases hp : tbfDecode plainKernel (plainOptions 1000000 2500) with
  | error err =>
    rw [hp] at h
    cases h
  | ok p =>
    rw [hp] at h
    exact ⟨p, rfl, of_decide_eq_true h⟩

theorem admitted_fits_plainOptions :
    ∃ p, tbfDecode plainKernel (plainOptions 1000000 2500) = .ok p ∧
      pschedL2tNs p.rate 1500 ≤ p.buffer := by
  obtain ⟨p, hp, hrate, hwire, hsize⟩ := plainOptions_decoded
  refine ⟨p, hp, ?_⟩
  have hfit : BurstsFit (table tcaTbfMax (attrs (plainOptions 1000000 2500))) p := by
    refine ⟨fun b hb => ?_, fun b hb => ?_⟩
    · have hb' : b = 2500 := by
        have h : burstOf (table tcaTbfMax (attrs (plainOptions 1000000 2500))) = some 2500 := by
          decide +kernel
        exact Option.some.inj (hb.symm.trans h)
      rw [hb']
      exact hwire
    · have h : pburstOf (table tcaTbfMax (attrs (plainOptions 1000000 2500))) = none := by
        decide +kernel
      rw [h] at hb
      cases hb
  exact (admitted_fits rfl (if_pos (by decide +kernel)) hp hfit hrate (hsize ▸ by decide)).1

end DynBandwidth.Sched.Parms
