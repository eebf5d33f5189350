import Netchan.Cipher.Poly1305
import Mathlib.Data.Nat.ModEq

/-!
# Poly1305: the words compute the code

`polyBlock_val` is about one block: no column overflows its word, and the accumulator that comes out
is below `5 * 2^128` and right modulo `2^130 - 5`. `Poly1305.Holds.update` is about a piece of a
message, and `Poly1305.Holds.final` about the last block, the one reduction and the pad.
-/

namespace Netchan.Cipher

open Lib

/-! ## Words -/

theorem toNat_low (x : UInt64) : (low x).toNat = x.toNat % 2 ^ 32 := by
  rw [low, UInt64.toNat_and]
  exact Nat.and_two_pow_sub_one_eq_mod x.toNat 32

theorem toNat_quarter (x : UInt32) : (x >>> 2).toNat = x.toNat / 4 := by
  rw [UInt32.toNat_shiftRight, Nat.shiftRight_eq_div_pow]
  rfl

theorem toNat_and_three (x : UInt32) : (x &&& 3).toNat = x.toNat % 4 := by
  rw [UInt32.toNat_and]
  exact Nat.and_two_pow_sub_one_eq_mod x.toNat 2

/-! ## One block -/

/-- The number in the words. -/
def Quad.val (q : Quad) : Nat :=
  q.w0.toNat + q.w1.toNat * 2 ^ 32 + q.w2.toNat * 2 ^ 64 + q.w3.toNat * 2 ^ 96

def Acc.val (h : Acc) : Nat :=
  h.h0.toNat + h.h1.toNat * 2 ^ 32 + h.h2.toNat * 2 ^ 64 + h.h3.toNat * 2 ^ 96 +
    h.h4.toNat * 2 ^ 128

def Columns.val (x : Columns) : Nat :=
  x.x0.toNat + x.x1.toNat * 2 ^ 32 + x.x2.toNat * 2 ^ 64 + x.x3.toNat * 2 ^ 96 +
    x.x4.toNat * 2 ^ 128

/-- The precondition on `r`: each word has 28 bits, and the upper ones are multiples of 4. -/
structure Clamped (r : Quad) : Prop where
  w0 : r.w0.toNat < 2 ^ 28
  w1 : r.w1.toNat < 2 ^ 28
  w2 : r.w2.toNat < 2 ^ 28
  w3 : r.w3.toNat < 2 ^ 28
  four1 : r.w1.toNat % 4 = 0
  four2 : r.w2.toNat % 4 = 0
  four3 : r.w3.toNat % 4 = 0

/-- The columns leave room for the carries. -/
structure Columns.Small (x : Columns) : Prop where
  x0 : x.x0.toNat < 0xb0000000 * 2 ^ 32
  x1 : x.x1.toNat < 0xb0000000 * 2 ^ 32
  x2 : x.x2.toNat < 0xb0000000 * 2 ^ 32
  x3 : x.x3.toNat < 0xb0000000 * 2 ^ 32
  x4 : x.x4.toNat < 16

/-- No sum of a column overflows. -/
theorem toNat_column {s0 s1 s2 s3 a0 a1 a2 a3 e : UInt64}
    (h0 : s0.toNat < 2 ^ 33) (h1 : s1.toNat < 2 ^ 33) (h2 : s2.toNat < 2 ^ 33)
    (h3 : s3.toNat < 2 ^ 33) (ha0 : a0.toNat < 0x14000000) (ha1 : a1.toNat < 0x14000000)
    (ha2 : a2.toNat < 0x14000000) (ha3 : a3.toNat < 0x14000000) (he : e.toNat < 2 ^ 32) :
    (s0 * a0 + s1 * a1 + s2 * a2 + s3 * a3 + e).toNat =
      s0.toNat * a0.toNat + s1.toNat * a1.toNat + s2.toNat * a2.toNat + s3.toNat * a3.toNat +
        e.toNat ∧
    (s0 * a0 + s1 * a1 + s2 * a2 + s3 * a3 + e).toNat < 0xb0000000 * 2 ^ 32 := by
  have b0 := Nat.mul_lt_mul'' h0 ha0
  have b1 := Nat.mul_lt_mul'' h1 ha1
  have b2 := Nat.mul_lt_mul'' h2 ha2
  have b3 := Nat.mul_lt_mul'' h3 ha3
  simp only [UInt64.toNat_add, UInt64.toNat_mul]
  omega

/-- The chain of carries on numbers. -/
theorem carries {x0 x1 x2 x3 x4 u0 u1 u2 u3 u4 u5 : Nat} (h5 : u5 = x4 + x3 / 2 ^ 32)
    (h0 : u0 = u5 / 4 * 5 + x0 % 2 ^ 32)
    (h1 : u1 = u0 / 2 ^ 32 + x1 % 2 ^ 32 + x0 / 2 ^ 32)
    (h2 : u2 = u1 / 2 ^ 32 + x2 % 2 ^ 32 + x1 / 2 ^ 32)
    (h3 : u3 = u2 / 2 ^ 32 + x3 % 2 ^ 32 + x2 / 2 ^ 32)
    (h4 : u4 = u3 / 2 ^ 32 + u5 % 4) :
    x0 + x1 * 2 ^ 32 + x2 * 2 ^ 64 + x3 * 2 ^ 96 + x4 * 2 ^ 128 =
      u0 % 2 ^ 32 + u1 % 2 ^ 32 * 2 ^ 32 + u2 % 2 ^ 32 * 2 ^ 64 + u3 % 2 ^ 32 * 2 ^ 96 +
        u4 * 2 ^ 128 + (2 ^ 130 - 5) * (u5 / 4) := by
  omega

/-- The columns on numbers: what is over `2^130` comes in again five times. -/
theorem product (s0 s1 s2 s3 s4 q0 q1 q2 q3 e : Nat) :
    (s0 + s1 * 2 ^ 32 + s2 * 2 ^ 64 + s3 * 2 ^ 96 + s4 * 2 ^ 128) *
        (4 * q0 + e + 4 * q1 * 2 ^ 32 + 4 * q2 * 2 ^ 64 + 4 * q3 * 2 ^ 96) =
      (s0 * (4 * q0 + e) + s1 * (5 * q3) + s2 * (5 * q2) + s3 * (5 * q1) + s4 * (5 * q0)) +
      (s0 * (4 * q1) + s1 * (4 * q0 + e) + s2 * (5 * q3) + s3 * (5 * q2) + s4 * (5 * q1)) * 2 ^ 32 +
      (s0 * (4 * q2) + s1 * (4 * q1) + s2 * (4 * q0 + e) + s3 * (5 * q3) + s4 * (5 * q2)) * 2 ^ 64 +
      (s0 * (4 * q3) + s1 * (4 * q2) + s2 * (4 * q1) + s3 * (4 * q0 + e) + s4 * (5 * q3)) * 2 ^ 96 +
      s4 * e * 2 ^ 128 +
      (2 ^ 130 - 5) * (s1 * q3 + s2 * q2 + s3 * q1 + s4 * q0 +
        (s2 * q3 + s3 * q2 + s4 * q1) * 2 ^ 32 + (s3 * q3 + s4 * q2) * 2 ^ 64 +
        s4 * q3 * 2 ^ 96) := by
  norm_num
  ring

/-- The carries are moved up, and those of the top word down again. -/
theorem reduce_val {x : Columns} (hx : x.Small) :
    (reduce x).h4.toNat ≤ 4 ∧ ∃ q, x.val = (reduce x).val + (2 ^ 130 - 5) * q := by
  obtain ⟨h0, h1, h2, h3, h4⟩ := hx
  unfold reduce
  extract_lets u5 u0 u1 u2 u3 u4
  have e5 : u5.toNat = x.x4.toNat + x.x3.toNat / 2 ^ 32 := by
    simp only [u5, UInt64.toNat_toUInt32, UInt64.toNat_add, UInt32.toNat_toUInt64, toNat_high]
    omega
  have b5 : u5.toNat < 0xb0000010 := by omega
  have e0 : u0.toNat = u5.toNat / 4 * 5 + x.x0.toNat % 2 ^ 32 := by
    have hq : u5.toNat / 4 * 5 < 2 ^ 32 := by omega
    simp only [u0, UInt64.toNat_add, UInt32.toNat_toUInt64, toNat_low, UInt32.toNat_mul,
      toNat_quarter, UInt32.reduceToNat, Nat.mod_eq_of_lt hq]
    omega
  have e1 : u1.toNat = u0.toNat / 2 ^ 32 + x.x1.toNat % 2 ^ 32 + x.x0.toNat / 2 ^ 32 := by
    simp only [u1, UInt64.toNat_add, toNat_low, toNat_high]
    omega
  have e2 : u2.toNat = u1.toNat / 2 ^ 32 + x.x2.toNat % 2 ^ 32 + x.x1.toNat / 2 ^ 32 := by
    simp only [u2, UInt64.toNat_add, toNat_low, toNat_high]
    omega
  have e3 : u3.toNat = u2.toNat / 2 ^ 32 + x.x3.toNat % 2 ^ 32 + x.x2.toNat / 2 ^ 32 := by
    simp only [u3, UInt64.toNat_add, toNat_low, toNat_high]
    omega
  have e4 : u4.toNat = u3.toNat / 2 ^ 32 + u5.toNat % 4 := by
    simp only [u4, UInt64.toNat_toUInt32, UInt64.toNat_add, UInt32.toNat_toUInt64, toNat_high,
      toNat_and_three]
    omega
  refine ⟨?_, u5.toNat / 4, ?_⟩
  · show u4.toNat ≤ 4
    omega
  · have hc := carries e5 e0 e1 e2 e3 e4
    simp only [Columns.val, Acc.val, UInt64.toNat_toUInt32, toNat_low, Nat.mod_mod]
    exact hc

theorem toNat_last {s a : UInt32} (hs : s.toNat ≤ 5) (ha : a.toNat < 0x14000000) :
    (s * a).toUInt64.toNat = s.toNat * a.toNat ∧ (s * a).toUInt64.toNat < 2 ^ 32 := by
  have hb := Nat.mul_le_mul hs (Nat.le_of_lt ha)
  rw [UInt32.toNat_toUInt64, UInt32.toNat_mul]
  omega

/-- The columns are the product. -/
theorem columns_val {r : Quad} {s0 s1 s2 s3 : UInt64} {s4 : UInt32} (hr : Clamped r)
    (h0 : s0.toNat < 2 ^ 33) (h1 : s1.toNat < 2 ^ 33) (h2 : s2.toNat < 2 ^ 33)
    (h3 : s3.toNat < 2 ^ 33) (h4 : s4.toNat ≤ 5) :
    (columns r s0 s1 s2 s3 s4).Small ∧ ∃ q,
      (s0.toNat + s1.toNat * 2 ^ 32 + s2.toNat * 2 ^ 64 + s3.toNat * 2 ^ 96 +
        s4.toNat * 2 ^ 128) * r.val = (columns r s0 s1 s2 s3 s4).val + (2 ^ 130 - 5) * q := by
  obtain ⟨r0, r1, r2, r3, f1, f2, f3⟩ := hr
  unfold columns
  extract_lets rr0 rr1 rr2 rr3 rr4
  have e0 : rr0.toNat = 5 * (r.w0.toNat / 4) := by
    simp only [rr0, UInt32.toNat_mul, toNat_quarter, UInt32.reduceToNat]
    omega
  have e1 : rr1.toNat = 5 * (r.w1.toNat / 4) := by
    simp only [rr1, UInt32.toNat_add, toNat_quarter]
    omega
  have e2 : rr2.toNat = 5 * (r.w2.toNat / 4) := by
    simp only [rr2, UInt32.toNat_add, toNat_quarter]
    omega
  have e3 : rr3.toNat = 5 * (r.w3.toNat / 4) := by
    simp only [rr3, UInt32.toNat_add, toNat_quarter]
    omega
  have e4 : rr4.toNat = r.w0.toNat % 4 := toNat_and_three _
  obtain ⟨t0, l0⟩ := toNat_last (a := rr0) h4 (by omega)
  obtain ⟨t1, l1⟩ := toNat_last (a := rr1) h4 (by omega)
  obtain ⟨t2, l2⟩ := toNat_last (a := rr2) h4 (by omega)
  obtain ⟨t3, l3⟩ := toNat_last (a := rr3) h4 (by omega)
  have w : ∀ a : UInt32, a.toNat < 0x14000000 → a.toUInt64.toNat < 0x14000000 := fun a ha => by
    rwa [UInt32.toNat_toUInt64]
  have v0 := w r.w0 (by omega)
  have v1 := w r.w1 (by omega)
  have v2 := w r.w2 (by omega)
  have v3 := w r.w3 (by omega)
  have y1 := w rr1 (by omega)
  have y2 := w rr2 (by omega)
  have y3 := w rr3 (by omega)
  obtain ⟨c0, k0⟩ := toNat_column h0 h1 h2 h3 v0 y3 y2 y1 l0
  obtain ⟨c1, k1⟩ := toNat_column h0 h1 h2 h3 v1 v0 y3 y2 l1
  obtain ⟨c2, k2⟩ := toNat_column h0 h1 h2 h3 v2 v1 v0 y3 l2
  obtain ⟨c3, k3⟩ := toNat_column h0 h1 h2 h3 v3 v2 v1 v0 l3
  have hm : s4.toNat * (r.w0.toNat % 4) ≤ 5 * 3 := Nat.mul_le_mul h4 (by omega)
  have c4 : (s4 * rr4).toNat = s4.toNat * (r.w0.toNat % 4) := by
    rw [UInt32.toNat_mul, e4]
    omega
  refine ⟨⟨k0, k1, k2, k3, (c4.trans_le hm).trans_lt (by decide)⟩, ?_⟩
  have hp := product s0.toNat s1.toNat s2.toNat s3.toNat s4.toNat (r.w0.toNat / 4)
    (r.w1.toNat / 4) (r.w2.toNat / 4) (r.w3.toNat / 4) (r.w0.toNat % 4)
  have d0 : 4 * (r.w0.toNat / 4) + r.w0.toNat % 4 = r.w0.toNat := by omega
  have d1 : 4 * (r.w1.toNat / 4) = r.w1.toNat := by omega
  have d2 : 4 * (r.w2.toNat / 4) = r.w2.toNat := by omega
  have d3 : 4 * (r.w3.toNat / 4) = r.w3.toNat := by omega
  rw [d0, d1, d2, d3, ← e0, ← e1, ← e2, ← e3] at hp
  simp only [Quad.val, Columns.val, c0, c1, c2, c3, c4, t0, t1, t2, t3, UInt32.toNat_toUInt64]
  exact ⟨_, hp⟩

theorem toNat_add_word (h : UInt32) (s : List UInt8) (i : Nat) :
    (h.toUInt64 + (load32Le s i).toUInt64).toNat = h.toNat + (load32Le s i).toNat ∧
    (h.toUInt64 + (load32Le s i).toUInt64).toNat < 2 ^ 33 := by
  have h1 := h.toNat_lt
  have h2 := (load32Le s i).toNat_lt
  rw [UInt64.toNat_add, UInt32.toNat_toUInt64, UInt32.toNat_toUInt64]
  omega

/-- A block is added and the sum multiplied, up to a multiple of `2^130 - 5`. -/
theorem polyBlock_val {r : Quad} {last : UInt32} {h : Acc} (inp : List UInt8) (hr : Clamped r)
    (hl : last.toNat ≤ 1) (hh : h.h4.toNat ≤ 4) :
    (polyBlock r last h inp).h4.toNat ≤ 4 ∧
    (polyBlock r last h inp).val % Rfc8439.p =
      (h.val + (leVal (bytesAt 16 inp 0).val + last.toNat * 2 ^ 128)) * r.val % Rfc8439.p := by
  obtain ⟨a0, b0⟩ := toNat_add_word h.h0 inp 0
  obtain ⟨a1, b1⟩ := toNat_add_word h.h1 inp 4
  obtain ⟨a2, b2⟩ := toNat_add_word h.h2 inp 8
  obtain ⟨a3, b3⟩ := toNat_add_word h.h3 inp 12
  have a4 : (h.h4 + last).toNat = h.h4.toNat + last.toNat := by
    rw [UInt32.toNat_add]
    omega
  obtain ⟨hs, q, hc⟩ := columns_val hr b0 b1 b2 b3 (show (h.h4 + last).toNat ≤ 5 by omega)
  obtain ⟨h4, q', hr'⟩ := reduce_val hs
  refine ⟨h4, ?_⟩
  have hsum : h.val + (leVal (bytesAt 16 inp 0).val + last.toNat * 2 ^ 128) =
      h.h0.toNat + (load32Le inp 0).toNat + (h.h1.toNat + (load32Le inp 4).toNat) * 2 ^ 32 +
        (h.h2.toNat + (load32Le inp 8).toNat) * 2 ^ 64 +
        (h.h3.toNat + (load32Le inp 12).toNat) * 2 ^ 96 + (h.h4.toNat + last.toNat) * 2 ^ 128 := by
    have hw := leVal_words inp 0
    simp only [Nat.zero_add] at hw
    rw [hw, Acc.val]
    ring
  rw [a0, a1, a2, a3, a4, ← hsum, hr', Nat.add_assoc, ← Nat.mul_add] at hc
  rw [hc, Rfc8439.p, Nat.add_mul_mod_self_left]
  rfl

/-- The accumulator is `a` modulo `2^130 - 5`, and below `5 * 2^128`. -/
structure Acc.Is (h : Acc) (a : Nat) : Prop where
  top : h.h4.toNat ≤ 4
  mod : h.val % Rfc8439.p = a

theorem Acc.Is.block {h : Acc} {a : Nat} {r : Quad} {last : UInt32} {inp b : List UInt8}
    (hh : h.Is a) (hr : Clamped r) (hl : last.toNat ≤ 1)
    (hb : leVal (bytesAt 16 inp 0).val + last.toNat * 2 ^ 128 = leVal (b ++ [1])) :
    (polyBlock r last h inp).Is (Rfc8439.absorb r.val a b) := by
  obtain ⟨htop, hval⟩ := polyBlock_val inp hr hl hh.top
  refine ⟨htop, ?_⟩
  rw [hval, hb, Rfc8439.absorb, ← hh.mod]
  exact ((Nat.mod_modEq _ _).symm.add_right _).mul_right _

/-- A full block with the 1 after it. -/
theorem leVal_block {b : List UInt8} (hb : b.length = 16) :
    leVal (bytesAt 16 b 0).val + (1 : UInt32).toNat * 2 ^ 128 = leVal (b ++ [1]) := by
  have hs := bytesAt_self b
  rw [hb] at hs
  rw [hs, leVal_append, hb]
  rfl

theorem Acc.Is.blocks {r : Quad} (hr : Clamped r) {bs : List (List UInt8)}
    (hbs : ∀ b ∈ bs, b.length = 16) {h : Acc} {a : Nat} (hh : h.Is a) :
    (bs.foldl (polyBlock r 1) h).Is (bs.foldl (Rfc8439.absorb r.val) a) := by
  induction bs generalizing h a with
  | nil => exact hh
  | cons b bs ih =>
    exact ih (fun b hb => hbs b (.tail _ hb))
      (hh.block hr (Nat.le_refl 1) (leVal_block (hbs b (.head _))))

/-! ## Updates -/

/-- `gap` is the least number that aligns `x`. -/
theorem gap_spec (x pow2 : UInt64) {k : Nat} (hk : k < 64) (hp : pow2.toNat = 2 ^ k) :
    (gap x pow2).toNat < pow2.toNat ∧ (x.toNat + (gap x pow2).toNat) % pow2.toNat = 0 := by
  have hx := x.toNat_lt
  have hone : (pow2 - 1).toNat = 2 ^ k - 1 := by
    rw [UInt64.toNat_sub_of_le _ _ (UInt64.le_iff_toNat_le.2 (hp ▸ Nat.one_le_two_pow)), hp]
    rfl
  have hdvd : 2 ^ k ∣ 2 ^ 64 := Nat.pow_dvd_pow 2 hk.le
  have hneg : (~~~x + 1).toNat = (2 ^ 64 - x.toNat) % 2 ^ 64 := by
    rw [UInt64.toNat_add, UInt64.toNat_not]
    show (2 ^ 64 - 1 - x.toNat + 1) % 2 ^ 64 = _
    congr 1
    omega
  have hgap : (gap x pow2).toNat = (2 ^ 64 - x.toNat) % 2 ^ k := by
    rw [gap, UInt64.toNat_and, hone, Nat.and_two_pow_sub_one_eq_mod, hneg,
      Nat.mod_mod_of_dvd _ hdvd]
  rw [hgap, hp]
  refine ⟨Nat.mod_lt _ (Nat.two_pow_pos k), ?_⟩
  rw [Nat.add_mod_mod, Nat.add_sub_cancel' hx.le]
  exact Nat.mod_eq_zero_of_dvd hdvd

/-- The message `m` has been taken under `key`. -/
structure Poly1305.Holds (key : Bytes 32) (ctx : Poly1305) (m : List UInt8) : Prop where
  r : ctx.r = (cryptoPoly1305Init key).r
  pad : ctx.pad = (cryptoPoly1305Init key).pad
  absorbed : Absorbed (polyBlock ctx.r 1) 16 ⟨0, 0, 0, 0, 0⟩ m ctx.h ctx.c

theorem cryptoPoly1305Init_holds (key : Bytes 32) : (cryptoPoly1305Init key).Holds key [] :=
  ⟨rfl, rfl, .nil (by decide)⟩

theorem polyBlocks_absorbs {r : Quad} {h0 : Acc} : ∀ (k : Nat) {m inp : List UInt8} {h : Acc},
    k * 16 ≤ inp.length → Absorbed (polyBlock r 1) 16 h0 m h [] →
    Absorbed (polyBlock r 1) 16 h0 (m ++ inp.take (k * 16)) (polyBlocks r 1 k inp h) []
  | 0, m, inp, h, _, ha => by simpa [polyBlocks] using ha
  | k + 1, m, inp, h, hk, ha => by
    have htake : inp.take ((k + 1) * 16) = inp.take 16 ++ (inp.drop 16).take (k * 16) := by
      rw [← List.take_add]
      congr 1
      omega
    rw [htake, ← List.append_assoc]
    exact polyBlocks_absorbs k (by rw [List.length_drop]; omega)
      (ha.block (by decide) (by rw [List.length_take]; omega))

/-- **An update appends its message.** -/
theorem Poly1305.Holds.update {key : Bytes 32} {ctx : Poly1305} {m : List UInt8}
    (h : ctx.Holds key m) (message : List UInt8) :
    (cryptoPoly1305Update ctx message).Holds key (m ++ message) := by
  unfold cryptoPoly1305Update
  by_cases hnil : message.length = 0
  · rw [if_pos hnil, List.length_eq_zero_iff.1 hnil, List.append_nil]
    exact h
  rw [if_neg hnil]
  extract_lets aligned ctx1 rest ctx2 n
  have hc : ctx.c.length < 16 := by
    rw [h.absorbed.length_rest]
    exact Nat.mod_lt _ (by decide)
  obtain ⟨hg, hz⟩ := gap_spec (.ofNat ctx.c.length) 16 (k := 4) (by decide) rfl
  have hword : (UInt64.ofNat ctx.c.length).toNat = ctx.c.length :=
    UInt64.toNat_ofNat_of_lt' (by show _ < 2 ^ 64; omega)
  rw [hword] at hz
  change _ < 16 at hg
  change _ % 16 = 0 at hz
  have hlen : ctx1.c.length = ctx.c.length + aligned := by
    simp only [ctx1, List.length_append, List.length_take]
    omega
  have hctx : ctx2.r = ctx.r ∧ ctx2.pad = ctx.pad ∧
      Absorbed (polyBlock ctx.r 1) 16 ⟨0, 0, 0, 0, 0⟩ (m ++ message.take aligned) ctx2.h
        ctx2.c ∧
      (ctx2.c = [] ∨ rest = []) := by
    by_cases hfull : ctx1.c.length = 16
    · have he : ctx2 = { ctx1 with h := polyBlocks ctx1.r 1 1 ctx1.c ctx1.h, c := [] } :=
        if_pos hfull
      rw [he]
      refine ⟨rfl, rfl, ?_, Or.inl rfl⟩
      have := h.absorbed.full (by decide) (d := message.take aligned) hfull
      simp only [polyBlocks]
      rw [List.take_of_length_le hfull.le]
      exact this
    · have he : ctx2 = ctx1 := if_neg hfull
      rw [he]
      have hshort : ctx1.c.length < 16 := by omega
      refine ⟨rfl, rfl, h.absorbed.short (d := message.take aligned) hshort, ?_⟩
      by_cases hsize : message.length ≤ aligned
      · exact Or.inr (List.drop_eq_nil_iff.2 hsize)
      · refine Or.inl (List.length_eq_zero_iff.1 ?_)
        show ctx1.c.length = 0
        omega
  obtain ⟨hr, hpad, habs, hor⟩ := hctx
  have hm : m ++ message = m ++ message.take aligned ++ rest := by
    rw [List.append_assoc, List.take_append_drop]
  refine ⟨hr.trans h.r, hpad.trans h.pad, ?_⟩
  have hn : n = rest.length / 16 := Nat.shiftRight_eq_div_pow ..
  have hn' : n <<< 4 = n * 16 := Nat.shiftLeft_eq ..
  rw [hm]
  show Absorbed (polyBlock ctx2.r 1) 16 _ _ (polyBlocks ctx2.r 1 n rest ctx2.h) _
  rw [hn', hr]
  rcases hor with hc2 | hrest
  · rw [hc2] at habs ⊢
    have hb := polyBlocks_absorbs n (by omega : n * 16 ≤ rest.length) habs
    have hs := hb.short (d := rest.drop (n * 16)) (by
      rw [List.nil_append, List.length_drop]
      omega)
    rwa [List.append_assoc, List.take_append_drop] at hs
  · have hn0 : n = 0 := by rw [hn, hrest]; rfl
    rw [hn0, hrest, List.drop_nil, List.append_nil, List.append_nil]
    exact habs

/-! ## The code -/

/-- The number that pairs of words add up to. -/
def sumVal : List (UInt32 × UInt32) → Nat
  | [] => 0
  | (h, pad) :: rest => h.toNat + pad.toNat + 2 ^ 32 * sumVal rest

theorem polyStore_eq (l : List (UInt32 × UInt32)) (c : UInt64) (hc : c.toNat < 2 ^ 33) :
    polyStore c l = leBytes (4 * l.length) (c.toNat + sumVal l) := by
  induction l generalizing c with
  | nil => rfl
  | cons w rest ih =>
    obtain ⟨h, pad⟩ := w
    have hh := h.toNat_lt
    have hpad := pad.toNat_lt
    have hsum : (c + (h.toUInt64 + pad.toUInt64)).toNat = c.toNat + (h.toNat + pad.toNat) := by
      simp only [UInt64.toNat_add, UInt32.toNat_toUInt64]
      omega
    have hword : store32Le (c + (h.toUInt64 + pad.toUInt64)).toUInt32 =
        leBytes 4 (c.toNat + sumVal ((h, pad) :: rest)) := by
      rw [store32Le, UInt64.toNat_toUInt32, hsum, sumVal, ← leBytes_mod 4 (_ + (_ + _))]
      congr 1
      omega
    have hrest : ((c + (h.toUInt64 + pad.toUInt64)) >>> 32).toNat + sumVal rest =
        (c.toNat + sumVal ((h, pad) :: rest)) / 256 ^ 4 := by
      rw [toNat_high, hsum, sumVal]
      omega
    rw [polyStore, hword, ih _ (by rw [toNat_high, hsum]; omega), hrest, ← leBytes_add,
      List.length_cons, Nat.mul_succ, Nat.add_comm 4]

/-- The carry says whether the accumulator reaches `2^130 - 5`. -/
theorem polyCarry_eq (h : Acc) (htop : h.h4.toNat ≤ 4) :
    (polyCarry h).toNat = (5 + h.val) / 2 ^ 130 * 5 := by
  have h0 := h.h0.toNat_lt
  have h1 := h.h1.toNat_lt
  have h2 := h.h2.toNat_lt
  have h3 := h.h3.toNat_lt
  unfold polyCarry
  extract_lets c c1 c2 c3 c4 c5
  have e1 : c1.toNat = (5 + h.h0.toNat) / 2 ^ 32 := by
    simp only [c1, c, toNat_high, UInt64.toNat_add, UInt32.toNat_toUInt64, UInt64.reduceToNat]
    omega
  have e2 : c2.toNat = (c1.toNat + h.h1.toNat) / 2 ^ 32 := by
    simp only [c2, toNat_high, UInt64.toNat_add, UInt32.toNat_toUInt64]
    omega
  have e3 : c3.toNat = (c2.toNat + h.h2.toNat) / 2 ^ 32 := by
    simp only [c3, toNat_high, UInt64.toNat_add, UInt32.toNat_toUInt64]
    omega
  have e4 : c4.toNat = (c3.toNat + h.h3.toNat) / 2 ^ 32 := by
    simp only [c4, toNat_high, UInt64.toNat_add, UInt32.toNat_toUInt64]
    omega
  have e5 : c5.toNat = c4.toNat + h.h4.toNat := by
    simp only [c5, UInt64.toNat_add, UInt32.toNat_toUInt64]
    omega
  have e6 : (c5 >>> 2).toNat = c5.toNat / 4 := by
    rw [UInt64.toNat_shiftRight, Nat.shiftRight_eq_div_pow]
    rfl
  rw [UInt64.toNat_mul, e6, Acc.val]
  show c5.toNat / 4 * 5 % 2 ^ 64 = _
  omega

theorem final_val {v pad : Nat} (hv : v < 5 * 2 ^ 128) :
    ((5 + v) / 2 ^ 130 * 5 + (v + pad)) % 256 ^ 16 = (v % Rfc8439.p + pad) % 256 ^ 16 := by
  by_cases hlt : v < Rfc8439.p
  · rw [Nat.mod_eq_of_lt hlt, Nat.div_eq_of_lt (by rw [Rfc8439.p] at hlt; omega)]
    omega
  · have hmod : v % Rfc8439.p = v - Rfc8439.p := by
      rw [Nat.mod_eq_sub_mod (Nat.le_of_not_lt hlt), Nat.mod_eq_of_lt (by rw [Rfc8439.p]; omega)]
    rw [hmod]
    rw [Rfc8439.p] at hlt ⊢
    have hdiv : (5 + v) / 2 ^ 130 = 1 := by omega
    rw [hdiv]
    omega

theorem cryptoPoly1305Init_r (key : Bytes 32) : Clamped (cryptoPoly1305Init key).r ∧
    (cryptoPoly1305Init key).r.val = Rfc8439.clamp (leVal (bytesAt 16 key.val 0).val) := by
  have hmask : ∀ x : UInt32,
      (x &&& 0x0ffffffc).toNat < 2 ^ 28 ∧ (x &&& 0x0ffffffc).toNat % 4 = 0 := by
    intro x
    rw [UInt32.toNat_and]
    refine ⟨Nat.and_le_right.trans_lt (by decide), ?_⟩
    rw [show (4 : Nat) = 2 ^ 2 from rfl, Nat.and_mod_two_pow]
    exact Nat.and_zero _
  have hmask0 : ∀ x : UInt32, (x &&& 0x0fffffff).toNat < 2 ^ 28 := by
    intro x
    rw [UInt32.toNat_and]
    exact Nat.and_le_right.trans_lt (by decide)
  refine ⟨⟨hmask0 _, (hmask _).1, (hmask _).1, (hmask _).1, (hmask _).2, (hmask _).2,
    (hmask _).2⟩, ?_⟩
  have h0 := (load32Le key.val 0).toNat_lt
  have h1 := (load32Le key.val 4).toNat_lt
  have h2 := (load32Le key.val 8).toNat_lt
  have h3 := (load32Le key.val 12).toNat_lt
  have hw := leVal_words key.val 0
  simp only [Nat.zero_add] at hw
  rw [Rfc8439.clamp, hw]
  simp only [cryptoPoly1305Init, Quad.val, Quad.load, UInt32.toNat_and, Nat.zero_add]
  generalize (load32Le key.val 0).toNat = a at *
  generalize (load32Le key.val 4).toNat = b at *
  generalize (load32Le key.val 8).toNat = c at *
  generalize (load32Le key.val 12).toNat = d at *
  rw [and_split (a + _ + _ + _) _ 32, and_split ((a + _ + _ + _) / _) _ 32,
    and_split ((a + _ + _ + _) / _ / _) _ 32]
  have e0 : (a + b * 2 ^ 32 + c * 2 ^ 64 + d * 2 ^ 96) % 2 ^ 32 = a := by omega
  have e1 : (a + b * 2 ^ 32 + c * 2 ^ 64 + d * 2 ^ 96) / 2 ^ 32 % 2 ^ 32 = b := by omega
  have e2 : (a + b * 2 ^ 32 + c * 2 ^ 64 + d * 2 ^ 96) / 2 ^ 32 / 2 ^ 32 % 2 ^ 32 = c := by omega
  have e3 : (a + b * 2 ^ 32 + c * 2 ^ 64 + d * 2 ^ 96) / 2 ^ 32 / 2 ^ 32 / 2 ^ 32 = d := by omega
  rw [e0, e1, e2, e3]
  show (a &&& 0xfffffff) + (b &&& 0xffffffc) * 2 ^ 32 + (c &&& 0xffffffc) * 2 ^ 64 +
    (d &&& 0xffffffc) * 2 ^ 96 = (a &&& 0xfffffff) + 2 ^ 32 * ((b &&& 0xffffffc) +
      2 ^ 32 * ((c &&& 0xffffffc) + 2 ^ 32 * (d &&& 0xffffffc)))
  ring

theorem cryptoPoly1305Init_pad (key : Bytes 32) :
    (cryptoPoly1305Init key).pad.val = leVal (bytesAt 16 key.val 16).val :=
  (leVal_words key.val 16).symm

theorem leVal_padded {c : List UInt8} (hc : c.length < 16) :
    leVal (bytesAt 16 (c ++ 1 :: List.replicate (15 - c.length) 0) 0).val +
      (0 : UInt32).toNat * 2 ^ 128 = leVal (c ++ [1]) := by
  have hlen : (c ++ 1 :: List.replicate (15 - c.length) (0 : UInt8)).length = 16 := by
    rw [List.length_append, List.length_cons, List.length_replicate]
    omega
  have hs := bytesAt_self (c ++ 1 :: List.replicate (15 - c.length) (0 : UInt8))
  rw [hlen] at hs
  rw [hs, leVal_append, leVal_append, leVal, leVal, leVal, leVal_zeros, UInt32.toNat_zero,
    Nat.zero_mul, Nat.add_zero]

/-- **The code of what was taken.** -/
theorem Poly1305.Holds.final {key : Bytes 32} {ctx : Poly1305} {m : List UInt8}
    (h : ctx.Holds key m) : cryptoPoly1305Final ctx = Rfc8439.mac key m := by
  obtain ⟨hclamp, hr⟩ := cryptoPoly1305Init_r key
  rw [← h.r] at hclamp hr
  obtain ⟨bs, hs, he⟩ := h.absorbed
  have hblocks : ctx.h.Is (bs.foldl (Rfc8439.absorb ctx.r.val) 0) := by
    rw [he]
    exact Acc.Is.blocks hclamp hs.whole ⟨by decide, rfl⟩
  have hend : (if ctx.c.length ≠ 0 then
      polyBlocks ctx.r 0 1 (ctx.c ++ 1 :: List.replicate (15 - ctx.c.length) 0) ctx.h
      else ctx.h).Is (if ctx.c = [] then bs.foldl (Rfc8439.absorb ctx.r.val) 0
      else Rfc8439.absorb ctx.r.val (bs.foldl (Rfc8439.absorb ctx.r.val) 0) ctx.c) := by
    by_cases hc : ctx.c = []
    · rw [if_pos hc, if_neg (by simp [hc])]
      exact hblocks
    · rw [if_neg hc, if_pos (by simpa using hc)]
      have hlen : (ctx.c ++ 1 :: List.replicate (15 - ctx.c.length) (0 : UInt8)).length ≤ 16 := by
        have := hs.rest
        rw [List.length_append, List.length_cons, List.length_replicate]
        omega
      rw [polyBlocks, polyBlocks, List.take_of_length_le hlen]
      exact hblocks.block hclamp (by decide) (leVal_padded hs.rest)
  have hrest := hs.drop_eq
  have hpad := cryptoPoly1305Init_pad key
  rw [← h.pad] at hpad
  unfold cryptoPoly1305Final Rfc8439.mac
  dsimp only
  rw [hs.blocks_eq, hrest, ← hr, ← hpad]
  generalize (if ctx.c.length ≠ 0 then _ else ctx.h) = acc at hend ⊢
  generalize (if ctx.c = [] then _ else _) = a at hend ⊢
  have hlt : acc.val < 5 * 2 ^ 128 := by
    have := hend.top
    have h0 := acc.h0.toNat_lt
    have h1 := acc.h1.toNat_lt
    have h2 := acc.h2.toNat_lt
    have h3 := acc.h3.toNat_lt
    rw [Acc.val]
    omega
  have hsum : sumVal [(acc.h0, ctx.pad.w0), (acc.h1, ctx.pad.w1), (acc.h2, ctx.pad.w2),
      (acc.h3, ctx.pad.w3)] + acc.h4.toNat * 2 ^ 128 = acc.val + ctx.pad.val := by
    simp only [sumVal, Acc.val, Quad.val]
    ring
  have hstore := polyStore_eq [(acc.h0, ctx.pad.w0), (acc.h1, ctx.pad.w1), (acc.h2, ctx.pad.w2),
    (acc.h3, ctx.pad.w3)] (polyCarry acc) (by rw [polyCarry_eq _ hend.top]; omega)
  rw [hstore, polyCarry_eq _ hend.top, ← leBytes_mod 16 (a + _), ← hend.mod, ← final_val hlt,
    ← hsum]
  refine (leBytes_mod 16 _).symm.trans (congrArg (leBytes 16) ?_)
  omega

/-- **Poly1305**: whatever pieces a message is fed in, the code is that of the RFC. -/
theorem poly1305_exact (key : Bytes 32) (pieces : List (List UInt8)) :
    cryptoPoly1305Final (pieces.foldl cryptoPoly1305Update (cryptoPoly1305Init key)) =
      Rfc8439.mac key pieces.flatten :=
  Poly1305.Holds.final (fed_pieces (I := Poly1305.Holds key) (fun _ _ d h => h.update d)
    (cryptoPoly1305Init_holds key) pieces)
end Netchan.Cipher
