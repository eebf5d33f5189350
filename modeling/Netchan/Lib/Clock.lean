import Mathlib.Data.UInt

/-!
# Two runs on two clocks

A program reads a free running 32-bit clock. Its run on another clock, ahead by `k`, is compared
with the first one: a difference of two readings is the same on both (`add_sub_add`), a branch that
both runs take alike keeps what relates them (`rel_ite`). `Stamp k a b` relates a field that holds
the time of an event and is 0 as long as there was none.
-/

namespace Lib

/-- A difference of times is the same on two clocks. -/
theorem add_sub_add (k a b : UInt32) : a + k - (b + k) = a - b := by
  have ha := a.toNat_lt
  have hb := b.toNat_lt
  have hk := k.toNat_lt
  apply UInt32.toNat_inj.1
  simp only [UInt32.toNat_sub, UInt32.toNat_add]
  omega

/-- A branch that both runs take alike. -/
theorem rel_ite_iff {α : Type} {R : α → α → Prop} {p q : Prop} [Decidable p] [Decidable q]
    {a a' b b' : α} (hpq : q ↔ p) (h1 : p → R a a') (h2 : ¬ p → R b b') :
    R (if p then a else b) (if q then a' else b') := by
  by_cases hp : p
  · rw [if_pos hp, if_pos (hpq.2 hp)]
    exact h1 hp
  · rw [if_neg hp, if_neg fun hq => hp (hpq.1 hq)]
    exact h2 hp

theorem rel_ite {α : Type} {R : α → α → Prop} {p : Prop} [Decidable p] {a a' b b' : α}
    (h1 : p → R a a') (h2 : ¬ p → R b b') : R (if p then a else b) (if p then a' else b') :=
  rel_ite_iff Iff.rfl h1 h2

/-- The time stamp `b` of the run whose clock is ahead by `k`, against `a` of the other: both are
unset, or both are set and `k` apart. -/
def Stamp (k a b : UInt32) : Prop := (b = 0 ↔ a = 0) ∧ (a ≠ 0 → b = a + k)

namespace Stamp

variable {k a b : UInt32}

theorem unset (k : UInt32) : Stamp k 0 0 := ⟨Iff.rfl, fun h => absurd rfl h⟩

theorem reading (h : a = 0 ↔ a + k = 0) : Stamp k a (a + k) := ⟨h.symm, fun _ => rfl⟩

theorem pos_iff (h : Stamp k a b) : b > 0 ↔ a > 0 := by
  rw [gt_iff_lt, gt_iff_lt, UInt32.pos_iff_ne_zero, UInt32.pos_iff_ne_zero]
  exact h.1.not

theorem elapsed (h : Stamp k a b) (ha : a ≠ 0) (now : UInt32) : now + k - b = now - a := by
  rw [h.2 ha]
  exact add_sub_add k now a

end Stamp

end Lib
