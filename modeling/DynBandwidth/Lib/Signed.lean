import Mathlib.Data.BitVec
import Mathlib.Order.Lattice

/-! # Words of 64 bits with a sign

The comparisons of signed words as C computes them. As long as two words are far from the sign bit,
these are the comparisons of the numbers they seem to be, and so is their difference
(`toInt_sub_of_lt`). -/

namespace DynBandwidth.Lib.Signed

/-- `min_t(s64, a, b)`. -/
def minS64 (a b : BitVec 64) : BitVec 64 := if a.slt b then a else b

/-- `max_t(long, a, b)`. -/
def maxS64 (a b : BitVec 64) : BitVec 64 := if b.slt a then a else b

/-- `if (x > top) x = top`, for numbers with a sign. -/
def capS64 (x top : BitVec 64) : BitVec 64 := if top.slt x then top else x

variable {a b : BitVec 64}

theorem toInt_of_lt (h : a.toNat < 2 ^ 63) : a.toInt = a.toNat :=
  BitVec.toInt_eq_toNat_of_lt (by omega)

theorem slt_iff (ha : a.toNat < 2 ^ 63) (hb : b.toNat < 2 ^ 63) :
    a.slt b = true ↔ a.toNat < b.toNat := by
  rw [BitVec.slt_iff_toInt_lt, toInt_of_lt ha, toInt_of_lt hb, Int.ofNat_lt]

theorem toNat_minS64 (ha : a.toNat < 2 ^ 63) (hb : b.toNat < 2 ^ 63) :
    (minS64 a b).toNat = min a.toNat b.toNat := by
  unfold minS64
  split_ifs with h
  · exact (min_eq_left (le_of_lt ((slt_iff ha hb).mp h))).symm
  · exact (min_eq_right (not_lt.mp fun hlt => h ((slt_iff ha hb).mpr hlt))).symm

theorem toNat_capS64 (ha : a.toNat < 2 ^ 63) (hb : b.toNat < 2 ^ 63) :
    (capS64 a b).toNat = min b.toNat a.toNat := by
  unfold capS64
  split_ifs with h
  · exact (min_eq_left (le_of_lt ((slt_iff hb ha).mp h))).symm
  · exact (min_eq_right (not_lt.mp fun hlt => h ((slt_iff hb ha).mpr hlt))).symm

theorem toInt_sub_of_lt (ha : a.toNat < 2 ^ 62) (hb : b.toNat < 2 ^ 62) :
    (a - b).toInt = (a.toNat : ℤ) - b.toNat := by
  rw [BitVec.toInt_sub, toInt_of_lt (by omega), toInt_of_lt (by omega)]
  exact Int.bmod_eq_of_le (by omega) (by omega)

theorem toInt_maxS64 : (maxS64 a b).toInt = max a.toInt b.toInt := by
  unfold maxS64
  split_ifs with h
  · exact (max_eq_left (le_of_lt (BitVec.slt_iff_toInt_lt.mp h))).symm
  · exact (max_eq_right (not_lt.mp fun hlt => h (BitVec.slt_iff_toInt_lt.mpr hlt))).symm

theorem toInt_neg_of_lt (h : -2 ^ 63 < a.toInt) : (-a).toInt = -a.toInt := by
  have := BitVec.toInt_lt (x := a)
  rw [BitVec.toInt_neg]
  exact Int.bmod_eq_of_le (by omega) (by omega)

/-- A number without its sign bit is the natural number it seems to be. -/
theorem toNat_of_toInt_nonneg (h : 0 ≤ a.toInt) : (a.toNat : ℤ) = a.toInt := by
  rw [BitVec.toInt_eq_toNat_cond] at h ⊢
  have := a.isLt
  split_ifs at h ⊢ <;> omega

/-- A time and a difference that is not negative. -/
theorem toNat_add_of_nonneg (hb : 0 ≤ b.toInt) (h : (a.toNat : ℤ) + b.toInt < 2 ^ 64) :
    ((a + b).toNat : ℤ) = a.toNat + b.toInt := by
  rw [← toNat_of_toInt_nonneg hb] at h ⊢
  rw [BitVec.toNat_add, Nat.mod_eq_of_lt (by omega)]
  push_cast
  rfl

theorem sle_or_iff : (0 : BitVec 64).sle (a ||| b) = true ↔ 0 ≤ a.toInt ∧ 0 ≤ b.toInt := by
  have hmsb : ∀ x : BitVec 64, 0 ≤ x.toInt ↔ x.msb = false := fun x => by
    rw [BitVec.msb_eq_toInt, decide_eq_false_iff_not, not_lt]
  have hz : (0 : BitVec 64).toInt = 0 := rfl
  rw [BitVec.sle_iff_toInt_le, hz, hmsb, hmsb, hmsb, BitVec.msb_or, Bool.or_eq_false_iff]

end DynBandwidth.Lib.Signed
