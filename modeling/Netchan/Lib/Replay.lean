import Mathlib.Data.List.Basic
import Mathlib.Data.Nat.Bitwise

/-!
# A sliding window of 64 counters

`max` is the largest counter accepted so far and bit `i` of `mask` says whether `max - i` was
accepted. `Exact` relates the two to the counters accepted, `exact_advance` and `exact_mark` are
the two ways in which a new one enters, `bit_iff` is the test for an old one.
-/

namespace Lib.Replay

/-- Bit `i` of a word. -/
def bit (w : UInt64) (i : Nat) : Bool := w.toNat.testBit i

section
variable {w : UInt64} {i : Nat}

theorem bit_zero : bit 0 i = false := Nat.zero_testBit i

theorem bit_or (w v : UInt64) (i : Nat) : bit (w ||| v) i = (bit w i || bit v i) := by
  rw [bit, UInt64.toNat_or, Nat.testBit_or]
  rfl

theorem toNat_one_shiftLeft {d : UInt64} (hd : d.toNat < 64) :
    ((1 : UInt64) <<< d).toNat = 2 ^ d.toNat := by
  have h : 2 ^ d.toNat < 2 ^ 64 := Nat.pow_lt_pow_right (by decide) hd
  rw [UInt64.toNat_shiftLeft, Nat.mod_eq_of_lt hd, Nat.shiftLeft_eq]
  simpa using h

theorem bit_one_shiftLeft {d : UInt64} (hd : d.toNat < 64) :
    bit (1 <<< d) i = decide (d.toNat = i) := by
  rw [bit, toNat_one_shiftLeft hd, Nat.testBit_two_pow]

theorem bit_one : bit 1 i = decide (0 = i) := by
  have := bit_one_shiftLeft (i := i) (d := 0) (by decide)
  simpa using this

theorem bit_shiftLeft {d : UInt64} (hd : d.toNat < 64) (hi : i < 64) :
    bit (w <<< d) i = (decide (d.toNat ≤ i) && bit w (i - d.toNat)) := by
  rw [bit, UInt64.toNat_shiftLeft, Nat.mod_eq_of_lt hd, Nat.testBit_mod_two_pow,
    Nat.testBit_shiftLeft]
  simp [bit, hi]

theorem and_ne_zero_iff {d : UInt64} (hd : d.toNat < 64) :
    w &&& (1 <<< d) ≠ 0 ↔ bit w d.toNat = true := by
  have hand : (w &&& (1 <<< d)).toNat = (bit w d.toNat).toNat * 2 ^ d.toNat := by
    rw [UInt64.toNat_and, toNat_one_shiftLeft hd, Nat.and_two_pow]
    rfl
  rw [Ne, ← UInt64.toNat_inj, hand]
  cases bit w d.toNat with
  | false => simp
  | true => simp

end

/-- The window of the counters `seen`. -/
structure Exact (max mask : UInt64) (seen : List UInt64) : Prop where
  le : ∀ n ∈ seen, n ≠ 0 ∧ n.toNat ≤ max.toNat
  bits : ∀ i < 64, bit mask i = true ↔ ∃ n ∈ seen, n.toNat + i = max.toNat

theorem exact_nil : Exact 0 0 [] := by
  refine ⟨nofun, fun i _ => ?_⟩
  simp [bit_zero]

section
variable {max mask n : UInt64} {seen : List UInt64}

/-- **The test for an old counter**: whether it was accepted before. -/
theorem bit_iff (h : Exact max mask seen) (hn : n ≤ max) (hd : (max - n).toNat < 64) :
    mask &&& (1 <<< (max - n)) ≠ 0 ↔ n ∈ seen := by
  have hle := UInt64.le_iff_toNat_le.1 hn
  have hsub : (max - n).toNat = max.toNat - n.toNat := UInt64.toNat_sub_of_le _ _ hn
  rw [and_ne_zero_iff hd, h.bits _ hd]
  constructor
  · rintro ⟨m, hm, he⟩
    have : m = n := UInt64.toNat_inj.1 (by omega)
    exact this ▸ hm
  · intro hm
    exact ⟨n, hm, by omega⟩

/-- **A new largest counter** moves the window. -/
theorem exact_advance (h : Exact max mask seen) (hn : max < n) :
    Exact n ((if n - max ≥ 64 then 0 else mask <<< (n - max)) ||| 1) (seen ++ [n]) := by
  have hlt := UInt64.lt_iff_toNat_lt.1 hn
  have hsub : (n - max).toNat = n.toNat - max.toNat :=
    UInt64.toNat_sub_of_le _ _ (UInt64.le_of_lt hn)
  have h64 : n - max ≥ 64 ↔ 64 ≤ n.toNat - max.toNat := by
    rw [ge_iff_le, UInt64.le_iff_toNat_le, hsub]
    rfl
  constructor
  · intro m hm
    rcases List.mem_append.1 hm with hm | hm
    · have := h.le m hm
      exact ⟨this.1, by omega⟩
    · obtain rfl := List.mem_singleton.1 hm
      refine ⟨?_, Nat.le_refl _⟩
      rintro rfl
      exact absurd hlt (Nat.not_lt_zero _)
  · intro i hi
    rw [bit_or, bit_one, Bool.or_eq_true, decide_eq_true_iff]
    have hold : bit (if n - max ≥ 64 then 0 else mask <<< (n - max)) i = true ↔
        ∃ m ∈ seen, m.toNat + i = n.toNat := by
      split
      · rename_i hge
        rw [bit_zero]
        refine ⟨nofun, fun ⟨m, hm, he⟩ => ?_⟩
        have := (h.le m hm).2
        have := h64.1 hge
        omega
      · rename_i hge
        have hlt64 : (n - max).toNat < 64 := by
          rw [hsub]
          exact Nat.lt_of_not_le fun hc => hge (h64.2 hc)
        rw [bit_shiftLeft hlt64 hi, Bool.and_eq_true, decide_eq_true_iff, hsub,
          h.bits (i - (n.toNat - max.toNat)) (by omega)]
        constructor
        · rintro ⟨hle, m, hm, he⟩
          exact ⟨m, hm, by omega⟩
        · rintro ⟨m, hm, he⟩
          have := (h.le m hm).2
          exact ⟨by omega, m, hm, by omega⟩
    rw [hold]
    constructor
    · rintro (⟨m, hm, he⟩ | rfl)
      · exact ⟨m, List.mem_append_left _ hm, he⟩
      · exact ⟨n, by simp, rfl⟩
    · rintro ⟨m, hm, he⟩
      rcases List.mem_append.1 hm with hm | hm
      · exact .inl ⟨m, hm, he⟩
      · obtain rfl := List.mem_singleton.1 hm
        exact .inr (by omega)

/-- **An old counter** sets its bit. -/
theorem exact_mark (h : Exact max mask seen) (h0 : n ≠ 0) (hn : n ≤ max)
    (hd : (max - n).toNat < 64) : Exact max (mask ||| 1 <<< (max - n)) (seen ++ [n]) := by
  have hle := UInt64.le_iff_toNat_le.1 hn
  have hsub : (max - n).toNat = max.toNat - n.toNat := UInt64.toNat_sub_of_le _ _ hn
  constructor
  · intro m hm
    rcases List.mem_append.1 hm with hm | hm
    · exact h.le m hm
    · obtain rfl := List.mem_singleton.1 hm
      exact ⟨h0, hle⟩
  · intro i hi
    rw [bit_or, Bool.or_eq_true, h.bits i hi, bit_one_shiftLeft hd, decide_eq_true_iff]
    constructor
    · rintro (⟨m, hm, he⟩ | he)
      · exact ⟨m, List.mem_append_left _ hm, he⟩
      · exact ⟨n, by simp, by omega⟩
    · rintro ⟨m, hm, he⟩
      rcases List.mem_append.1 hm with hm | hm
      · exact .inl ⟨m, hm, he⟩
      · obtain rfl := List.mem_singleton.1 hm
        exact .inr (by omega)

end

end Lib.Replay
