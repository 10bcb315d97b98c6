import DynBandwidth.Tbf.Kernel

/-! # The price of a packet

The schedulers of the kernel replace the division of a length by a rate by a multiplication and a
shift, whose numbers `psched_ratecfg_precompute` of `sch_generic.c` computes once. The price of a
packet is the time it takes, in nanoseconds. The function that computes it, `psched_l2t_ns`, stands
in a header of the kernel that the repository does not have, and is written here from the comments
of the repository: "time_in_ns = (len * mult) >> shift" in `psched_ratecfg_precompute`, and, for a
link of ATM cells, the comment of `tc_align_to_atm` in `tc_core.c`, by which the kernel adds the
overhead before it rounds up to full cells of 48 bytes in 53. `psched_ns_t2l` of `sch_tbf.c` undoes
the same steps in the other order.

The multiplier is the quotient with as many bits as a loop can get (`precomputed`), so that the
price is the exact time, rounded down and less than two nanoseconds short, for every packet that
takes at most two seconds (`l2tNs_accurate`). The length that `psched_ns_t2l` of `sch_tbf.c` finds
for a time can be sent in this time (`l2tNs_le_of_t2l`). -/

namespace DynBandwidth.Sched.Rates

open DynBandwidth.Tbf.Uapi DynBandwidth.Tbf.Kernel
open DynBandwidth.Reorder.Header (U8 U16 U32 U64)

/-- The bytes on the wire: the overhead is added, and an ATM link sends cells of 53 bytes for 48, as
`tc_align_to_atm` computes them. -/
def wireLen (r : PschedRatecfg) (len : U32) : U32 :=
  let len := len + r.overhead.setWidth 32
  if r.linklayer = 2 then (len + 47) / 48 * 53 else len

/-- `psched_l2t_ns`: the time that a packet takes, by the formula in `psched_ratecfg_precompute`. -/
def pschedL2tNs (r : PschedRatecfg) (len : U32) : U64 :=
  ((wireLen r len).setWidth 64 * r.mult.setWidth 64) >>> r.shift.toNat

/-- The bytes on the wire as a number that does not wrap. -/
def wireNat (r : PschedRatecfg) (len : ℕ) : ℕ :=
  if r.linklayer = 2 then (len + r.overhead.toNat + 47) / 48 * 53 else len + r.overhead.toNat

/-! ### The loop -/

/-- What the loop of `psched_ratecfg_precompute` is meant to find: the quotient by the rate, as
precise as 32 bits allow. -/
structure Precomputed (r : PschedRatecfg) : Prop where
  mult : r.mult.toNat = 1000000000 * 2 ^ r.shift.toNat / r.rateBytesPs.toNat
  precise : 2 ^ 31 ≤ r.mult.toNat ∨ r.shift.toNat = 34

/-- The quotient of a round of the loop. -/
theorem toNat_quotient {rate factor : U64} {k : ℕ} (hf : factor.toNat = 1000000000 * 2 ^ k)
    (hlt : 1000000000 * 2 ^ k / rate.toNat < 2 ^ 32) :
    ((factor / rate).setWidth 32).toNat = 1000000000 * 2 ^ k / rate.toNat := by
  rw [BitVec.toNat_setWidth, BitVec.toNat_udiv, hf, Nat.mod_eq_of_lt hlt]

/-- A factor that has not reached its last bit can be doubled. -/
theorem toNat_double {factor : U64} {k : ℕ} (hk : k < 34) (hf : factor.toNat = 1000000000 * 2 ^ k) :
    (factor <<< 1).toNat = 1000000000 * 2 ^ (k + 1) := by
  have hpow : 2 ^ k ≤ 2 ^ 33 := Nat.pow_le_pow_right (by omega) (by omega)
  rw [BitVec.toNat_shiftLeft, Nat.shiftLeft_eq, hf, Nat.mod_eq_of_lt, pow_succ]
  · ring
  · omega

/-- A quotient without its last bit leaves room for the next one. -/
theorem quotient_double {rate x : ℕ} (hx : x / rate < 2 ^ 31) : x * 2 / rate < 2 ^ 32 := by
  rcases Nat.eq_zero_or_pos rate with rfl | hpos
  · simp
  · rw [Nat.div_lt_iff_lt_mul hpos] at hx ⊢
    omega

theorem lastBit_iff (x : U32) : x.getLsbD 31 = true ↔ 2 ^ 31 ≤ x.toNat := by
  have h := BitVec.msb_eq_decide x
  rw [BitVec.msb_eq_getLsbD_last] at h
  exact h ▸ decide_eq_true_iff

/-- **The loop**: started with `k` rounds done, it ends with the quotient and its shift, because the
factor has 64 bits after 34 rounds. -/
theorem reciprocal_spec (rate : U64) : ∀ (n k : ℕ) (factor : U64) (shift : U8), n + k = 34 →
    factor.toNat = 1000000000 * 2 ^ k → shift.toNat = k →
    1000000000 * 2 ^ k / rate.toNat < 2 ^ 32 →
    (reciprocal rate n factor shift).1.toNat =
        1000000000 * 2 ^ (reciprocal rate n factor shift).2.toNat / rate.toNat ∧
      (2 ^ 31 ≤ (reciprocal rate n factor shift).1.toNat ∨
        (reciprocal rate n factor shift).2.toNat = 34)
  | 0, k, factor, shift, hn, hf, hs, hlt => by
    rw [reciprocal, hs]
    exact ⟨toNat_quotient hf hlt, Or.inr (by omega)⟩
  | n + 1, k, factor, shift, hn, hf, hs, hlt => by
    have hq := toNat_quotient hf hlt
    have hlast : factor.getLsbD 63 = false := by
      have hpow : 2 ^ k ≤ 2 ^ 33 := Nat.pow_le_pow_right (by omega) (by omega)
      rw [BitVec.getLsbD, Nat.testBit_lt_two_pow (by omega)]
    rw [reciprocal, hlast, Bool.or_false]
    by_cases hbit : ((factor / rate).setWidth 32).getLsbD 31 = true
    · rw [if_pos hbit, hs]
      exact ⟨hq, Or.inl ((lastBit_iff _).mp hbit)⟩
    · have hsmall : 1000000000 * 2 ^ k / rate.toNat < 2 ^ 31 := by
        rw [lastBit_iff, hq] at hbit
        omega
      rw [if_neg hbit]
      refine reciprocal_spec rate n (k + 1) _ _ (by omega) (toNat_double (by omega) hf) ?_ ?_
      · rw [BitVec.toNat_add, hs]
        exact Nat.mod_eq_of_lt (by show k + 1 < 256; omega)
      · rw [pow_succ, ← mul_assoc]
        exact quotient_double hsmall

/-- **What is precomputed** for a rate that is not zero. -/
theorem precomputed (conf : TcRatespec) (rate64 : U64)
    (h : (pschedRatecfgPrecompute conf rate64).rateBytesPs ≠ 0) :
    Precomputed (pschedRatecfgPrecompute conf rate64) := by
  have hpos : 0 < maxU64 (conf.rate.setWidth 64) rate64 :=
    (BitVec.ult_iff_lt (x := 0)).mp (by
      rw [BitVec.ult, decide_eq_true_iff]
      exact Nat.pos_of_ne_zero fun h0 => h (BitVec.eq_of_toNat_eq h0))
  have hlt : 1000000000 * 2 ^ 0 / (maxU64 (conf.rate.setWidth 64) rate64).toNat < 2 ^ 32 :=
    lt_of_le_of_lt (Nat.div_le_self _ _) (by omega)
  obtain ⟨hm, hp⟩ := reciprocal_spec (maxU64 (conf.rate.setWidth 64) rate64) 34 0 1000000000 0 rfl
    rfl rfl hlt
  unfold pschedRatecfgPrecompute
  simp only [if_pos hpos]
  exact ⟨hm, hp⟩

/-! ### The price -/

section Price
variable {r : PschedRatecfg} {len : U32}

theorem toNat_l2tNs (r : PschedRatecfg) (len : U32) : (pschedL2tNs r len).toNat =
    (wireLen r len).toNat * r.mult.toNat / 2 ^ r.shift.toNat := by
  have hprod : (wireLen r len).toNat * r.mult.toNat < 2 ^ 64 := by
    have h := Nat.mul_lt_mul'' (wireLen r len).isLt r.mult.isLt
    omega
  rw [pschedL2tNs, BitVec.toNat_ushiftRight, Nat.shiftRight_eq_div_pow, BitVec.toNat_mul,
    BitVec.toNat_setWidth_of_le (by omega), BitVec.toNat_setWidth_of_le (by omega),
    Nat.mod_eq_of_lt hprod]

/-- The price is not more than the exact time. -/
theorem l2tNs_mul_rate_le (hr : Precomputed r) (len : U32) :
    (pschedL2tNs r len).toNat * r.rateBytesPs.toNat ≤ (wireLen r len).toNat * 1000000000 := by
  have hm : r.mult.toNat * r.rateBytesPs.toNat ≤ 1000000000 * 2 ^ r.shift.toNat := by
    rw [hr.mult]
    exact Nat.div_mul_le_self _ _
  rw [toNat_l2tNs]
  refine Nat.le_of_mul_le_mul_right ?_ (Nat.two_pow_pos r.shift.toNat)
  calc (wireLen r len).toNat * r.mult.toNat / 2 ^ r.shift.toNat * r.rateBytesPs.toNat *
        2 ^ r.shift.toNat
      = (wireLen r len).toNat * r.mult.toNat / 2 ^ r.shift.toNat * 2 ^ r.shift.toNat *
        r.rateBytesPs.toNat := by ring
    _ ≤ (wireLen r len).toNat * r.mult.toNat * r.rateBytesPs.toNat :=
        Nat.mul_le_mul_right _ (Nat.div_mul_le_self _ _)
    _ ≤ (wireLen r len).toNat * (1000000000 * 2 ^ r.shift.toNat) := by
        rw [mul_assoc]
        gcongr
    _ = (wireLen r len).toNat * 1000000000 * 2 ^ r.shift.toNat := by ring

/-- How far it is below: one nanosecond for the last shift, and what the multiplier lost. -/
theorem lt_l2tNs_mul_rate (hr : Precomputed r) (hpos : 0 < r.rateBytesPs.toNat)
    (hlen : 0 < (wireLen r len).toNat) :
    (wireLen r len).toNat * 1000000000 * 2 ^ r.shift.toNat < r.rateBytesPs.toNat *
      (((pschedL2tNs r len).toNat + 1) * 2 ^ r.shift.toNat + (wireLen r len).toNat) := by
  have hm : 1000000000 * 2 ^ r.shift.toNat < (r.mult.toNat + 1) * r.rateBytesPs.toNat := by
    rw [hr.mult]
    exact Nat.lt_mul_of_div_lt (Nat.lt_succ_self _) hpos
  have hl : (wireLen r len).toNat * r.mult.toNat <
      ((pschedL2tNs r len).toNat + 1) * 2 ^ r.shift.toNat := by
    rw [toNat_l2tNs]
    exact Nat.lt_mul_of_div_lt (Nat.lt_succ_self _) (Nat.two_pow_pos _)
  calc (wireLen r len).toNat * 1000000000 * 2 ^ r.shift.toNat
      = (wireLen r len).toNat * (1000000000 * 2 ^ r.shift.toNat) := by ring
    _ < (wireLen r len).toNat * ((r.mult.toNat + 1) * r.rateBytesPs.toNat) := by gcongr
    _ = r.rateBytesPs.toNat * ((wireLen r len).toNat * r.mult.toNat + (wireLen r len).toNat) := by
        ring
    _ ≤ _ := by gcongr

/-- A packet of at most two seconds is not longer than the power of two that is shifted out. -/
theorem wireLen_le_pow (hr : Precomputed r)
    (hlen : (wireLen r len).toNat ≤ 2 * r.rateBytesPs.toNat) :
    (wireLen r len).toNat ≤ 2 ^ r.shift.toNat := by
  rcases hr.precise with hp | hs
  · rcases Nat.eq_zero_or_pos r.rateBytesPs.toNat with h0 | hpos
    · have := Nat.two_pow_pos r.shift.toNat
      omega
    · have hm : 2 ^ 31 * r.rateBytesPs.toNat ≤ 1000000000 * 2 ^ r.shift.toNat := by
        rw [hr.mult] at hp
        exact (Nat.le_div_iff_mul_le hpos).mp hp
      omega
  · have := (wireLen r len).isLt
    rw [hs]
    omega

theorem lt_add_two_mul_rate (hr : Precomputed r) (hrate : r.rateBytesPs ≠ 0)
    (hlen : (wireLen r len).toNat ≤ 2 * r.rateBytesPs.toNat) :
    (wireLen r len).toNat * 1000000000 <
      ((pschedL2tNs r len).toNat + 2) * r.rateBytesPs.toNat := by
  have hpos : 0 < r.rateBytesPs.toNat :=
    Nat.pos_of_ne_zero fun h0 => hrate (BitVec.eq_of_toNat_eq h0)
  rcases Nat.eq_zero_or_pos (wireLen r len).toNat with h0 | hwire
  · rw [h0, Nat.zero_mul]
    positivity
  · have hpow := wireLen_le_pow hr hlen
    refine Nat.lt_of_mul_lt_mul_right (a := 2 ^ r.shift.toNat) ?_
    calc (wireLen r len).toNat * 1000000000 * 2 ^ r.shift.toNat
        < r.rateBytesPs.toNat * (((pschedL2tNs r len).toNat + 1) * 2 ^ r.shift.toNat +
          (wireLen r len).toNat) := lt_l2tNs_mul_rate hr hpos hwire
      _ ≤ r.rateBytesPs.toNat * (((pschedL2tNs r len).toNat + 1) * 2 ^ r.shift.toNat +
          2 ^ r.shift.toNat) := by gcongr
      _ = ((pschedL2tNs r len).toNat + 2) * r.rateBytesPs.toNat * 2 ^ r.shift.toNat := by ring

/-- **The price is accurate**: it is the time that the packet takes at the rate, rounded down, and
less than two nanoseconds short, for packets of at most two seconds. -/
theorem l2tNs_accurate {conf : TcRatespec} {rate64 : U64}
    (h : pschedRatecfgPrecompute conf rate64 = r) (hrate : r.rateBytesPs ≠ 0)
    (hlen : (wireLen r len).toNat ≤ 2 * r.rateBytesPs.toNat) :
    (pschedL2tNs r len).toNat * r.rateBytesPs.toNat ≤ (wireLen r len).toNat * 1000000000 ∧
      (wireLen r len).toNat * 1000000000 <
        ((pschedL2tNs r len).toNat + 2) * r.rateBytesPs.toNat := by
  subst h
  exact ⟨l2tNs_mul_rate_le (precomputed conf rate64 hrate) len,
    lt_add_two_mul_rate (precomputed conf rate64 hrate) hrate hlen⟩

theorem l2tNs_accurate_megabyte :
    (pschedL2tNs (pschedRatecfgPrecompute ⟨0, 1, 0, 0, 0, 1000000⟩ 0) 1500).toNat * 1000000 ≤
      1500 * 1000000000 :=
  (l2tNs_accurate rfl (by decide +kernel) (by decide +kernel)).1

/-- For a rate of zero the price is the length. -/
theorem precompute_zero {conf : TcRatespec} {rate64 : U64}
    (h : (pschedRatecfgPrecompute conf rate64).rateBytesPs = 0) :
    (pschedRatecfgPrecompute conf rate64).mult = 1 ∧
      (pschedRatecfgPrecompute conf rate64).shift = 0 := by
  have h0 : ¬ 0 < maxU64 (conf.rate.setWidth 64) rate64 := fun hlt => by
    have hz : maxU64 (conf.rate.setWidth 64) rate64 = 0 := h
    rw [hz] at hlt
    exact absurd hlt (by decide)
  unfold pschedRatecfgPrecompute
  simp only [if_neg h0, and_self]

/-- The price of a packet is far from the last bit of a signed number. -/
theorem l2tNs_lt (conf : TcRatespec) (rate64 : U64) (len : U32) :
    (pschedL2tNs (pschedRatecfgPrecompute conf rate64) len).toNat < 2 ^ 62 := by
  generalize hr : pschedRatecfgPrecompute conf rate64 = r
  have hlen := (wireLen r len).isLt
  by_cases h : r.rateBytesPs = 0
  · subst hr
    obtain ⟨hm, hs⟩ := precompute_zero h
    have hone : (1 : U32).toNat = 1 := rfl
    rw [toNat_l2tNs, hm, hs, hone, Nat.mul_one]
    exact lt_of_le_of_lt (Nat.div_le_self _ _) (by omega)
  · have hpos : 0 < r.rateBytesPs.toNat :=
      Nat.pos_of_ne_zero fun h0 => h (BitVec.eq_of_toNat_eq h0)
    have hle := l2tNs_mul_rate_le (hr ▸ precomputed conf rate64 (hr ▸ h)) len
    have := Nat.le_mul_of_pos_right (pschedL2tNs r len).toNat hpos
    omega

/-! ### Lengths that do not wrap -/

theorem wireNat_mono (r : PschedRatecfg) {m n : ℕ} (h : m ≤ n) : wireNat r m ≤ wireNat r n := by
  unfold wireNat
  split_ifs
  · gcongr
  · gcongr

/-- Wrapping makes a length shorter. -/
theorem wireLen_le (r : PschedRatecfg) (len : U32) :
    (wireLen r len).toNat ≤ wireNat r len.toNat := by
  have hsum : (len + r.overhead.setWidth 32).toNat ≤ len.toNat + r.overhead.toNat := by
    rw [BitVec.toNat_add, BitVec.toNat_setWidth_of_le (by omega)]
    exact Nat.mod_le _ _
  unfold wireLen wireNat
  split_ifs
  · rw [BitVec.toNat_mul, BitVec.toNat_udiv, BitVec.toNat_add]
    refine (Nat.mod_le _ _).trans (Nat.mul_le_mul_right 53 (Nat.div_le_div_right ?_))
    exact (Nat.mod_le _ _).trans (Nat.add_le_add_right hsum 47)
  · exact hsum

theorem toNat_wireLen (h : wireNat r len.toNat < 2 ^ 32) :
    (wireLen r len).toNat = wireNat r len.toNat := by
  have hov := r.overhead.isLt
  unfold wireNat at h ⊢
  unfold wireLen
  split_ifs at h ⊢
  · have hsum : (len + r.overhead.setWidth 32).toNat = len.toNat + r.overhead.toNat := by
      rw [BitVec.toNat_add, BitVec.toNat_setWidth_of_le (by omega)]
      omega
    have h47 : (len + r.overhead.setWidth 32 + 47).toNat = len.toNat + r.overhead.toNat + 47 := by
      rw [BitVec.toNat_add, hsum]
      exact Nat.mod_eq_of_lt (by show _ + 47 < _; omega)
    rw [BitVec.toNat_mul, BitVec.toNat_udiv, h47]
    exact Nat.mod_eq_of_lt h
  · rw [BitVec.toNat_add, BitVec.toNat_setWidth_of_le (by omega), Nat.mod_eq_of_lt h]

/-- A shorter packet is not more expensive. -/
theorem l2tNs_mono {len' : U32} (hle : len ≤ len') (h : wireNat r len'.toNat < 2 ^ 32) :
    pschedL2tNs r len ≤ pschedL2tNs r len' := by
  have hle' : len.toNat ≤ len'.toNat := hle
  rw [BitVec.le_def, toNat_l2tNs, toNat_l2tNs, toNat_wireLen h]
  refine Nat.div_le_div_right (Nat.mul_le_mul_right _ ?_)
  exact (wireLen_le r len).trans (wireNat_mono r hle')

/-! ### The length for a time -/

/-- The product of time and rate may wrap, which makes it smaller. -/
theorem t2l_spec (r : PschedRatecfg) (t : U64) (h : pschedNsT2l r t ≠ 0) :
    wireNat r (pschedNsT2l r t).toNat * 1000000000 ≤ t.toNat * r.rateBytesPs.toNat := by
  have hov := r.overhead.isLt
  have hprod : (t * r.rateBytesPs / 1000000000).toNat * 1000000000 ≤
      t.toNat * r.rateBytesPs.toNat := by
    rw [BitVec.toNat_udiv, BitVec.toNat_mul]
    exact (Nat.div_mul_le_self _ _).trans (Nat.mod_le _ _)
  have hsub : ∀ len : U64, r.overhead.setWidth 64 < len →
      (len - r.overhead.setWidth 64).toNat + r.overhead.toNat = len.toNat := fun len hlt => by
    have hlt' : r.overhead.toNat < len.toNat := by
      rwa [BitVec.lt_def, BitVec.toNat_setWidth_of_le (by omega)] at hlt
    rw [BitVec.toNat_sub_of_le (BitVec.le_of_lt hlt), BitVec.toNat_setWidth_of_le (by omega)]
    omega
  unfold pschedNsT2l wireNat at *
  dsimp only at h ⊢
  split_ifs at h ⊢ with hatm hlt hlt
  · have hcells : ∀ x : U64, (x / 53 * 48).toNat = x.toNat / 53 * 48 := fun x => by
      have := x.isLt
      rw [BitVec.toNat_mul, BitVec.toNat_udiv]
      exact Nat.mod_eq_of_lt (by show x.toNat / 53 * 48 < _; omega)
    rw [hsub _ hlt, hcells]
    refine le_trans (Nat.mul_le_mul_right _ ?_) hprod
    generalize (t * r.rateBytesPs / 1000000000).toNat = x
    omega
  · exact absurd rfl h
  · rw [hsub _ hlt]
    exact hprod
  · exact absurd rfl h

/-- **The length for a time can be sent in this time.** -/
theorem l2tNs_le_of_t2l (hr : Precomputed r) (hrate : r.rateBytesPs ≠ 0) {t : U64}
    (h0 : pschedNsT2l r t ≠ 0) (h : len.toNat ≤ (pschedNsT2l r t).toNat) :
    pschedL2tNs r len ≤ t := by
  have hpos : 0 < r.rateBytesPs.toNat :=
    Nat.pos_of_ne_zero fun h0 => hrate (BitVec.eq_of_toNat_eq h0)
  rw [BitVec.le_def]
  refine Nat.le_of_mul_le_mul_right ?_ hpos
  calc (pschedL2tNs r len).toNat * r.rateBytesPs.toNat
      ≤ (wireLen r len).toNat * 1000000000 := l2tNs_mul_rate_le hr len
    _ ≤ wireNat r (pschedNsT2l r t).toNat * 1000000000 :=
        Nat.mul_le_mul_right _ ((wireLen_le r len).trans (wireNat_mono r h))
    _ ≤ t.toNat * r.rateBytesPs.toNat := t2l_spec r t h0

end Price

end DynBandwidth.Sched.Rates
