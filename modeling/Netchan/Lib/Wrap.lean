import Mathlib.Algebra.Order.Group.Nat
import Mathlib.Data.Nat.ModEq

/-!
# Slots of a counter that wraps

An array of `w` slots holds consecutive numbers, each in the slot of its remainder by `w`, where the
numbers are those of a counter modulo `m`. `slots_apart` says when `n ≤ w` of them from `b` on have
slots of their own: always if `w` divides `m`, else as long as they do not cross the wrap, or are no
more than the remainder of `m` by `w`.
-/

namespace Lib

section
variable {m w b n : Nat}

/-- Two numbers less than `w` apart with one remainder by `w` are equal. -/
theorem eq_of_mod_near {x y : Nat} (hle : x ≤ y) (hlt : y < x + w) (h : x % w = y % w) : x = y := by
  have hmod : x ≡ y [MOD w] := h
  have hdvd : w ∣ y - x := (Nat.modEq_iff_dvd' hle).1 hmod
  have hzero : y - x = 0 := Nat.eq_zero_of_dvd_of_lt hdvd (by omega)
  omega

/-- Numbers before and after the wrap that share a slot are as far apart as the remainder of `m`, or
further than the window. -/
theorem wrap_apart {s t : Nat} (hs : s ≤ m) (hst : s + t < w)
    (h : (m - s) % w = t % w) : s + t = m % w := by
  have hmod : m - s + s ≡ t + s [MOD w] := Nat.ModEq.add_right s h
  have hm : m % w = (t + s) % w := by
    rw [← hmod, Nat.sub_add_cancel hs]
  rw [hm, Nat.mod_eq_of_lt (by omega)]
  omega

/-- The numbers have slots of their own. -/
def SlotsApart (m w b n : Nat) : Prop :=
  ∀ i j, i < n → j < n → (b + i) % m % w = (b + j) % m % w → i = j

theorem SlotsApart.of_lt (h : ∀ i j, i < j → j < n → (b + i) % m % w ≠ (b + j) % m % w) :
    SlotsApart m w b n := by
  intro i j hi hj he
  rcases Nat.lt_trichotomy i j with hij | hij | hij
  · exact absurd he (h i j hij hj)
  · exact hij
  · exact absurd he.symm (h j i hij hi)

/-- Two numbers that share a slot before and after the wrap. -/
theorem not_apart_of_wrap (hb : b < m) (hwm : w ≤ m) (hw : 0 < w) (hdvd : ¬ w ∣ m)
    (hr : m % w < n) (hcross : m < b + n) : ¬ SlotsApart m w b n := by
  intro h
  have hpos : 0 < m % w := Nat.pos_of_ne_zero fun h0 => hdvd (Nat.dvd_of_mod_eq_zero h0)
  have hlt : m % w < w := Nat.mod_lt _ hw
  have hle : m % w ≤ m := Nat.mod_le m w
  -- `s` numbers before the wrap and `t` after it, `s + t` being the remainder
  obtain ⟨s, t, hst, hs0, hs, ht⟩ : ∃ s t, s + t = m % w ∧ 0 < s ∧ s ≤ m - b ∧ m + t < b + n := by
    by_cases hr' : m % w ≤ m - b
    · exact ⟨m % w, 0, rfl, hpos, hr', by omega⟩
    · exact ⟨m - b, m % w - (m - b), by omega, by omega, Nat.le_refl _, by omega⟩
  have hslot : (m - s) % w = t := by
    have hq : w ∣ m - m % w := Nat.dvd_sub_mod m
    have heq : m - s = m - m % w + t := by omega
    rw [heq, Nat.add_mod, Nat.mod_eq_zero_of_dvd hq, Nat.zero_add, Nat.mod_mod,
      Nat.mod_eq_of_lt (by omega)]
  have hbefore : (b + (m - s - b)) % m % w = t := by
    have heq : b + (m - s - b) = m - s := by omega
    rw [heq, Nat.mod_eq_of_lt (show m - s < m by omega), hslot]
  have hafter : (b + (m + t - b)) % m % w = t := by
    have heq : b + (m + t - b) = m + t := by omega
    rw [heq, Nat.add_mod_left, Nat.mod_eq_of_lt (show t < m by omega),
      Nat.mod_eq_of_lt (show t < w by omega)]
  have := h (m - s - b) (m + t - b) (by omega) (by omega) (hbefore.trans hafter.symm)
  omega

/-- **When the slots are apart.** -/
theorem slots_apart (hb : b < m) (hn : n ≤ w) (hwm : w ≤ m) (hw : 0 < w) :
    SlotsApart m w b n ↔ w ∣ m ∨ n ≤ m % w ∨ b + n ≤ m := by
  constructor
  · intro h
    by_contra hno
    obtain ⟨hdvd, hno⟩ := not_or.1 hno
    obtain ⟨hr, hcross⟩ := not_or.1 hno
    exact not_apart_of_wrap hb hwm hw hdvd (Nat.not_le.1 hr) (Nat.not_le.1 hcross) h
  · intro h
    refine .of_lt fun i j hij hj he => ?_
    rcases h with hdvd | h
    · rw [Nat.mod_mod_of_dvd _ hdvd, Nat.mod_mod_of_dvd _ hdvd] at he
      have := eq_of_mod_near (by omega) (by omega) he
      omega
    by_cases hjm : b + j < m
    · -- neither is past the wrap
      rw [Nat.mod_eq_of_lt hjm, Nat.mod_eq_of_lt (show b + i < m by omega)] at he
      have := eq_of_mod_near (by omega) (by omega) he
      omega
    have hwrap : ∀ k, m ≤ b + k → k < n → (b + k) % m = b + k - m := by
      intro k hk hkn
      rw [Nat.mod_eq_sub_mod hk, Nat.mod_eq_of_lt (by omega)]
    rw [hwrap j (by omega) hj] at he
    by_cases him : b + i < m
    · -- the wrap is between them
      have heq : b + i = m - (m - (b + i)) := by omega
      rw [Nat.mod_eq_of_lt him, heq] at he
      have := wrap_apart (s := m - (b + i)) (t := b + j - m) (by omega) (by omega) he
      omega
    · -- both are past the wrap
      rw [hwrap i (by omega) (by omega)] at he
      have := eq_of_mod_near (by omega) (by omega) he
      omega

end

end Lib
