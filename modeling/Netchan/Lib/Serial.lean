import Mathlib.Algebra.Group.Nat.Defs
import Mathlib.Algebra.Group.Int.Defs

/-!
# 16-bit serial numbers

A counter that never wraps is transmitted modulo `2 ^ 16`. `int16` is the signed reading of a
16-bit difference; `int16_sub` recovers the difference of two counters less than `2 ^ 15` apart
from their transmitted forms, and `eq_of_ofNat` the counter itself from a window of `2 ^ 16`.
-/

namespace Lib

/-- `(int16_t) x`. -/
def int16 (x : UInt16) : Int := if x.toNat < 2 ^ 15 then x.toNat else x.toNat - 2 ^ 16

theorem toNat_ofNat_sub (m n : Nat) :
    (UInt16.ofNat m - UInt16.ofNat n).toNat = (2 ^ 16 - n % 2 ^ 16 + m) % 2 ^ 16 := by
  rw [UInt16.toNat_sub, UInt16.toNat_ofNat', UInt16.toNat_ofNat']
  omega

/-- **The signed 16-bit difference of two counters** at most `2 ^ 15` apart. -/
theorem int16_sub {m n : Nat} (h1 : m < n + 2 ^ 15) (h2 : n ≤ m + 2 ^ 15) :
    int16 (UInt16.ofNat m - UInt16.ofNat n) = (m : Int) - n := by
  unfold int16
  rw [toNat_ofNat_sub]
  split <;> omega

/-- Two counters less than `2 ^ 16` apart with one transmitted form are equal. -/
theorem eq_of_ofNat {m n : Nat} (h : UInt16.ofNat m = UInt16.ofNat n) (h1 : m < n + 2 ^ 16)
    (h2 : n < m + 2 ^ 16) : m = n := by
  have := congrArg UInt16.toNat h
  rw [UInt16.toNat_ofNat', UInt16.toNat_ofNat'] at this
  omega

theorem ofNat_succ (n : Nat) : UInt16.ofNat n + 1 = UInt16.ofNat (n + 1) := by
  rw [UInt16.ofNat_add]; rfl

theorem int16_pred_sub (r : UInt16) : int16 (r - 1 - r) = -1 := by
  have hr := r.toNat_lt
  have h1 : (1 : UInt16).toNat = 1 := rfl
  unfold int16
  simp only [UInt16.toNat_sub, h1]
  split <;> omega

theorem int16_sub_pred {s r : UInt16} (h0 : 0 ≤ int16 (s - r)) (h1 : int16 (s - r) < 2 ^ 15 - 1) :
    int16 (s - (r - 1)) = int16 (s - r) + 1 := by
  have hr := r.toNat_lt
  have hs := s.toNat_lt
  have e1 : (1 : UInt16).toNat = 1 := rfl
  unfold int16 at *
  simp only [UInt16.toNat_sub, e1] at *
  split at h0 <;> split <;> omega

end Lib
