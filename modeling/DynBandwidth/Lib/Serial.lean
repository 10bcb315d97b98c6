import Mathlib.Data.BitVec
import Mathlib.Tactic.Ring
import Mathlib.Tactic.Linarith

/-! # Serial numbers: comparing points of a circle by signed difference

A `w`-bit counter that wraps is a point of a circle. `sdist a b` is the signed length of the shorter
arc from `b` to `a`. It is not additive on the whole circle, but only ever off by full turns
(`sdist_triangle`), so that statements about points that are close to each other reduce to linear
arithmetic over `ℤ`. The points `BitVec.ofInt w x` of unbounded positions `x : ℤ` compare as the
positions do, as long as these are within half a turn (`sdist_ofInt`). -/

namespace DynBandwidth.Lib.Serial

variable {w : ℕ}

/-- The signed distance from `b` to `a`. -/
def sdist (a b : BitVec w) : ℤ := (a - b).toInt

theorem two_mul_sdist_lt (a b : BitVec w) : 2 * sdist a b < 2 ^ w := BitVec.two_mul_toInt_lt

theorem le_two_mul_sdist (a b : BitVec w) : -2 ^ w ≤ 2 * sdist a b := BitVec.le_two_mul_toInt

theorem sdist_eq_zero {a b : BitVec w} : sdist a b = 0 ↔ a = b := by
  unfold sdist
  rw [← BitVec.toInt_zero (w := w), BitVec.toInt_inj]
  constructor
  · intro h
    have h' : a - b = 0 := h
    exact sub_eq_zero.mp h'
  · rintro rfl
    exact sub_self a

@[simp] theorem sdist_self (a : BitVec w) : sdist a a = 0 := sdist_eq_zero.mpr rfl

/-- Two integers with one residue differ by full turns. -/
theorem exists_turns {x y : ℤ} (h : BitVec.ofInt w x = BitVec.ofInt w y) :
    ∃ k : ℤ, x = y + k * 2 ^ w := by
  have h' : x.bmod (2 ^ w) = y.bmod (2 ^ w) := by
    rw [← BitVec.toInt_ofInt, ← BitVec.toInt_ofInt, h]
  refine ⟨x.bdiv (2 ^ w) - y.bdiv (2 ^ w), ?_⟩
  have hx := Int.bmod_add_bdiv' x (2 ^ w)
  have hy := Int.bmod_add_bdiv' y (2 ^ w)
  push_cast at hx hy
  rw [sub_mul]
  linarith

/-- **Distances add up to full turns.** -/
theorem sdist_triangle (a b c : BitVec w) :
    ∃ k : ℤ, sdist a c = sdist a b + sdist b c + k * 2 ^ w := by
  refine exists_turns ?_
  rw [BitVec.ofInt_add]
  unfold sdist
  rw [BitVec.ofInt_toInt, BitVec.ofInt_toInt, BitVec.ofInt_toInt]
  exact (sub_add_sub_cancel a b c).symm

/-- The distance of the points of two positions, up to full turns. -/
theorem sdist_ofInt_turns (x y : ℤ) :
    ∃ k : ℤ, sdist (BitVec.ofInt w x) (BitVec.ofInt w y) = x - y + k * 2 ^ w := by
  refine exists_turns ?_
  unfold sdist
  rw [BitVec.ofInt_toInt, sub_eq_add_neg x y, BitVec.ofInt_add, BitVec.ofInt_neg]
  exact sub_eq_add_neg _ _

/-- **Positions within half a turn compare as their points do.** -/
theorem sdist_ofInt {x y : ℤ} (hlo : -2 ^ w ≤ 2 * (x - y)) (hhi : 2 * (x - y) < 2 ^ w) :
    sdist (BitVec.ofInt w x) (BitVec.ofInt w y) = x - y := by
  obtain ⟨k, hk⟩ := sdist_ofInt_turns (w := w) x y
  have h1 := two_mul_sdist_lt (BitVec.ofInt w x) (BitVec.ofInt w y)
  have h2 := le_two_mul_sdist (BitVec.ofInt w x) (BitVec.ofInt w y)
  have hpos : (0 : ℤ) < 2 ^ w := by positivity
  have hlt : k < 1 := by nlinarith
  have hgt : -1 < k := by nlinarith
  have hk0 : k = 0 := by omega
  rw [hk, hk0]; ring

/-- Going back the shorter arc, unless the two points are opposite. -/
theorem sdist_comm {a b : BitVec w} (h : -2 ^ w < 2 * sdist a b) : sdist b a = -sdist a b := by
  obtain ⟨k, hk⟩ := sdist_triangle a b a
  rw [sdist_self] at hk
  have h1 := two_mul_sdist_lt a b
  have h2 := two_mul_sdist_lt b a
  have h3 := le_two_mul_sdist b a
  have hpos : (0 : ℤ) < 2 ^ w := by positivity
  have hlt : k < 1 := by nlinarith
  have hgt : -1 < k := by nlinarith
  have hk0 : k = 0 := by omega
  rw [hk0] at hk; linarith

end DynBandwidth.Lib.Serial
