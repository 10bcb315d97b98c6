import DynBandwidth.Lib.Runs
import Mathlib.Algebra.Order.Group.Int
import Mathlib.Algebra.Order.Group.MinMax
import Mathlib.Algebra.BigOperators.Group.List.Basic
import Mathlib.Tactic.Abel
import Mathlib.Tactic.Linarith

/-! # Token buckets

A bucket holds tokens that grow with the clock up to a depth; something is paid for with tokens, and
may be done when there are enough of them. Time and tokens are measured in the same unit, so that a
rate is a price. The depth and the price may be different for every payment.

* `level` is what the bucket holds at a time; a price can be paid at or after one moment and not
  before (`le_level_iff`).
* Along a run, what is paid from one payment on is at most the depth at that payment, the time that
  passes, and what the bucket was refilled with (`run_conforms`). -/

namespace DynBandwidth.Lib.TokenBucket

open DynBandwidth.Lib.Runs

variable {R : Type} [AddCommGroup R] [LinearOrder R]

/-- The tokens, and when they were counted. -/
structure Bucket (R : Type) where
  tokens : R
  last : R

/-- The tokens at a time: they grow with the clock up to the depth. -/
def Bucket.level (b : Bucket R) (depth now : R) : R := min depth (b.tokens + (now - b.last))

/-- What happens to a bucket: a price is paid, after which `left` tokens are left (some may be
lost), or it is filled anew. -/
inductive Move (R : Type)
  | pay (now depth price left : R)
  | refill (now tokens : R)

def step (b : Bucket R) : Move R → Option (Bucket R)
  | .pay now depth price left =>
    if 0 ≤ left ∧ left + price ≤ b.level depth now then some ⟨left, now⟩ else none
  | .refill now tokens => if 0 ≤ tokens ∧ b.last ≤ now then some ⟨tokens, now⟩ else none

def Move.price : Move R → R
  | .pay _ _ price _ => price
  | .refill _ _ => 0

def Move.gift : Move R → R
  | .pay _ _ _ _ => 0
  | .refill _ tokens => tokens

/-- What is paid in all. -/
def paid (ms : List (Move R)) : R := (ms.map Move.price).sum

/-- What the bucket is refilled with in all. -/
def refilled (ms : List (Move R)) : R := (ms.map Move.gift).sum

omit [LinearOrder R] in
@[simp] theorem paid_nil : paid ([] : List (Move R)) = 0 := rfl

omit [LinearOrder R] in
@[simp] theorem paid_cons (m : Move R) (ms : List (Move R)) : paid (m :: ms) = m.price + paid ms :=
  List.sum_cons

omit [LinearOrder R] in
@[simp] theorem refilled_nil : refilled ([] : List (Move R)) = 0 := rfl

omit [LinearOrder R] in
@[simp] theorem refilled_cons (m : Move R) (ms : List (Move R)) :
    refilled (m :: ms) = m.gift + refilled ms := List.sum_cons

variable {b b' : Bucket R} {ms : List (Move R)}

theorem step_pay {now depth price left : R} (h : step b (.pay now depth price left) = some b') :
    0 ≤ left ∧ left + price ≤ b.level depth now ∧ b' = ⟨left, now⟩ := by
  rw [step] at h
  split_ifs at h with hc
  exact ⟨hc.1, hc.2, (Option.some.inj h).symm⟩

theorem step_refill {now tokens : R} (h : step b (.refill now tokens) = some b') :
    0 ≤ tokens ∧ b.last ≤ now ∧ b' = ⟨tokens, now⟩ := by
  rw [step] at h
  split_ifs at h with hc
  exact ⟨hc.1, hc.2, (Option.some.inj h).symm⟩

variable [IsOrderedAddMonoid R]

/-- **When a price can be paid**: never if it is more than the depth, and else from one moment on.
-/
theorem le_level_iff (b : Bucket R) (depth now price : R) :
    price ≤ b.level depth now ↔ price ≤ depth ∧ b.last + (price - b.tokens) ≤ now := by
  rw [Bucket.level, le_min_iff, ← sub_le_iff_le_add', le_sub_iff_add_le']

/-- It makes no difference if the time that has passed is cut to the depth first. -/
theorem level_eq_min_min (hb : 0 ≤ b.tokens) (depth now : R) :
    b.level depth now = min depth (b.tokens + min (now - b.last) depth) := by
  rw [Bucket.level]
  rcases le_total (now - b.last) depth with h | h
  · rw [min_eq_left h]
  · have h1 : depth ≤ b.tokens + depth := le_add_of_nonneg_left hb
    rw [min_eq_right h, min_eq_left h1, min_eq_left (h1.trans (by gcongr))]

/-- One move: tokens are not negative, and come from the clock or from a refill. -/
theorem step_tokens (hb : 0 ≤ b.tokens) {m : Move R} (h : step b m = some b') :
    0 ≤ b'.tokens ∧ b'.tokens + m.price ≤ b.tokens + m.gift + (b'.last - b.last) := by
  cases m with
  | pay now depth price left =>
    obtain ⟨hleft, hpay, rfl⟩ := step_pay h
    exact ⟨hleft, by rw [Move.gift, add_zero]; exact hpay.trans (min_le_right _ _)⟩
  | refill now tokens =>
    obtain ⟨htok, hlast, rfl⟩ := step_refill h
    refine ⟨htok, ?_⟩
    have hclock : 0 ≤ b.tokens + (now - b.last) := add_nonneg hb (sub_nonneg.mpr hlast)
    rw [Move.price, Move.gift, add_zero, add_right_comm]
    exact le_add_of_nonneg_left hclock

/-- **Along a run** all that is paid comes from the first tokens, the refills and the clock. -/
theorem run_tokens : ∀ {ms : List (Move R)} {b : Bucket R}, 0 ≤ b.tokens →
    run step b ms = some b' →
    0 ≤ b'.tokens ∧ b'.tokens + paid ms ≤ b.tokens + refilled ms + (b'.last - b.last)
  | [], b, hb, h => by
    cases h
    simp [hb]
  | m :: ms, b, hb, h => by
    obtain ⟨b1, h1, hr⟩ := run_cons_some h
    obtain ⟨hb1, hm⟩ := step_tokens hb h1
    obtain ⟨hb', hms⟩ := run_tokens hb1 hr
    refine ⟨hb', ?_⟩
    calc b'.tokens + paid (m :: ms)
        = m.price + (b'.tokens + paid ms) := by rw [paid_cons]; abel
      _ ≤ m.price + (b1.tokens + refilled ms + (b'.last - b1.last)) := by gcongr
      _ = b1.tokens + m.price + refilled ms + (b'.last - b1.last) := by abel
      _ ≤ b.tokens + m.gift + (b1.last - b.last) + refilled ms + (b'.last - b1.last) := by gcongr
      _ = b.tokens + refilled (m :: ms) + (b'.last - b.last) := by rw [refilled_cons]; abel

/-- **Conformance**: what is paid from a payment on is at most the depth at that payment, the
refills, and the time from then to the last move. -/
theorem run_conforms {now depth price left : R}
    (h : run step b (.pay now depth price left :: ms) = some b') :
    price + paid ms ≤ depth + refilled ms + (b'.last - now) := by
  obtain ⟨b1, h1, hr⟩ := run_cons_some h
  obtain ⟨hleft, hpay, rfl⟩ := step_pay h1
  obtain ⟨hb', hms⟩ := run_tokens hleft hr
  have hdepth : left + price ≤ depth := hpay.trans (min_le_left _ _)
  calc price + paid ms
      ≤ price + (b'.tokens + paid ms) := by gcongr; exact le_add_of_nonneg_left hb'
    _ ≤ price + (left + refilled ms + (b'.last - now)) := by gcongr
    _ = left + price + refilled ms + (b'.last - now) := by abel
    _ ≤ depth + refilled ms + (b'.last - now) := by gcongr

end DynBandwidth.Lib.TokenBucket
