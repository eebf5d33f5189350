import Netchan.Lib.Fields
import Mathlib.Tactic.Ring

/-!
# Little-endian words

Words of 32 and 64 bits in a byte string, and the number of several words.
-/

namespace Lib

/-- The 32-bit word at `i`. -/
def load32Le (s : List UInt8) (i : Nat) : UInt32 := .ofNat (leVal (bytesAt 4 s i).val)

/-- The 64-bit word at `i`. -/
def load64Le (s : List UInt8) (i : Nat) : UInt64 := .ofNat (leVal (bytesAt 8 s i).val)

def store32Le (v : UInt32) : List UInt8 := leBytes 4 v.toNat

def store64Le (v : UInt64) : List UInt8 := leBytes 8 v.toNat

@[simp] theorem length_store32Le (v : UInt32) : (store32Le v).length = 4 := length_leBytes ..
@[simp] theorem length_store64Le (v : UInt64) : (store64Le v).length = 8 := length_leBytes ..

theorem leVal_append (l m : List UInt8) : leVal (l ++ m) = leVal l + 256 ^ l.length * leVal m := by
  induction l with
  | nil => simp [leVal]
  | cons b l ih =>
    rw [List.cons_append, leVal, ih, leVal, List.length_cons, Nat.pow_succ]
    ring

theorem leVal_bytesAt_lt (n : Nat) (s : List UInt8) (i : Nat) :
    leVal (bytesAt n s i).val < 256 ^ n := by
  have h := leVal_lt (bytesAt n s i).val
  rwa [(bytesAt n s i).property] at h

theorem toNat_load32Le (s : List UInt8) (i : Nat) :
    (load32Le s i).toNat = leVal (bytesAt 4 s i).val :=
  UInt32.toNat_ofNat_of_lt' (leVal_bytesAt_lt 4 s i)

theorem toNat_load64Le (s : List UInt8) (i : Nat) :
    (load64Le s i).toNat = leVal (bytesAt 8 s i).val :=
  UInt64.toNat_ofNat_of_lt' (leVal_bytesAt_lt 8 s i)

theorem bytesAt_add (m n : Nat) (s : List UInt8) (i : Nat) :
    (bytesAt (m + n) s i).val = (bytesAt m s i).val ++ (bytesAt n s (i + m)).val := by
  simp only [bytesAt, List.range_add, List.map_append, List.map_map, Nat.add_assoc]
  rfl

theorem leVal_bytesAt_add (m n : Nat) (s : List UInt8) (i : Nat) :
    leVal (bytesAt (m + n) s i).val =
      leVal (bytesAt m s i).val + 256 ^ m * leVal (bytesAt n s (i + m)).val := by
  rw [bytesAt_add, leVal_append, (bytesAt m s i).property]

theorem store32Le_load32Le {s : List UInt8} (hs : 4 ≤ s.length) :
    store32Le (load32Le s 0) = s.take 4 := by
  have h := leBytes_leVal (bytesAt 4 s 0).val
  rw [(bytesAt 4 s 0).property, bytesAt_eq (by omega), List.drop_zero] at h
  rw [store32Le, toNat_load32Le, bytesAt_eq (by omega), List.drop_zero, h]

theorem load32Le_drop (s : List UInt8) (n i : Nat) :
    load32Le (s.drop n) i = load32Le s (n + i) := by
  have h : (bytesAt 4 (s.drop n) i).val = (bytesAt 4 s (n + i)).val := by
    show List.map _ _ = List.map _ _
    refine List.map_congr_left fun j _ => ?_
    rw [byte, byte, List.getD_eq_getElem?_getD, List.getElem?_drop, List.getD_eq_getElem?_getD,
      Nat.add_assoc]
  rw [load32Le, load32Le, h]

theorem leVal_words (s : List UInt8) (i : Nat) : leVal (bytesAt 16 s i).val =
    (load32Le s i).toNat + (load32Le s (i + 4)).toNat * 2 ^ 32 +
      (load32Le s (i + 8)).toNat * 2 ^ 64 + (load32Le s (i + 12)).toNat * 2 ^ 96 := by
  simp only [toNat_load32Le]
  rw [leVal_bytesAt_add 4 12, leVal_bytesAt_add 4 8, leVal_bytesAt_add 4 4]
  ring

/-- The bytes of a number are its first bytes and those of what is left. -/
theorem leBytes_add (m n v : Nat) : leBytes (m + n) v = leBytes m v ++ leBytes n (v / 256 ^ m) := by
  induction m generalizing v with
  | zero => simp [leBytes]
  | succ m ih =>
    rw [Nat.succ_add, leBytes, ih, leBytes, List.cons_append, Nat.div_div_eq_div_mul, Nat.pow_succ']

theorem leBytes_mod (n v : Nat) : leBytes n (v % 256 ^ n) = leBytes n v := by
  have h := leBytes_leVal (leBytes n v)
  rwa [length_leBytes, leVal_leBytes] at h

theorem leVal_zeros (n : Nat) : leVal (List.replicate n 0) = 0 := by
  induction n with
  | zero => rfl
  | succ n ih =>
    rw [List.replicate_succ, leVal, ih]
    rfl

theorem bytesAt_self (b : List UInt8) : (bytesAt b.length b 0).val = b := by
  rw [bytesAt_eq (Nat.zero_add _).le, List.drop_zero, List.take_length]

/-! ## Words in halves -/

theorem toNat_high (x : UInt64) : (x >>> 32).toNat = x.toNat / 2 ^ 32 := by
  rw [UInt64.toNat_shiftRight, Nat.shiftRight_eq_div_pow]
  rfl

/-- A mask works on the low bits and on the high ones. -/
theorem and_split (x m k : Nat) :
    x &&& m = (x % 2 ^ k &&& m % 2 ^ k) + 2 ^ k * (x / 2 ^ k &&& m / 2 ^ k) := by
  rw [← Nat.and_mod_two_pow, ← Nat.and_div_two_pow, Nat.mod_add_div]

/-! ## Bytes of strings and of words -/

theorem byte_append (a b : List UInt8) (i : Nat) :
    byte (a ++ b) i = if i < a.length then byte a i else byte b (i - a.length) := by
  by_cases h : i < a.length
  · rw [if_pos h, byte, byte, List.getD_eq_getElem?_getD, List.getElem?_append_left h,
      ← List.getD_eq_getElem?_getD]
  · rw [if_neg h, byte, byte, List.getD_eq_getElem?_getD,
      List.getElem?_append_right (Nat.le_of_not_lt h), ← List.getD_eq_getElem?_getD]

theorem byte_outside {a : List UInt8} {i : Nat} (h : a.length ≤ i) : byte a i = 0 := by
  rw [byte, List.getD_eq_getElem?_getD, List.getElem?_eq_none h]
  rfl

theorem byte_take (a : List UInt8) (n i : Nat) :
    byte (a.take n) i = if i < n then byte a i else 0 := by
  by_cases h : i < n
  · rw [if_pos h, byte, byte, List.getD_eq_getElem?_getD, List.getElem?_take_of_lt h,
      ← List.getD_eq_getElem?_getD]
  · rw [if_neg h]
    refine byte_outside ?_
    rw [List.length_take]
    omega

theorem getElem_eq_byte {l : List UInt8} {i : Nat} (hi : i < l.length) : l[i] = byte l i := by
  rw [byte, List.getD_eq_getElem?_getD, List.getElem?_eq_getElem hi, Option.getD_some]

theorem load64Le_congr {a b : List UInt8} {i j : Nat}
    (h : ∀ k < 8, byte a (i + k) = byte b (j + k)) : load64Le a i = load64Le b j := by
  have hv : (bytesAt 8 a i).val = (bytesAt 8 b j).val :=
    List.map_congr_left fun k hk => h k (List.mem_range.1 hk)
  rw [load64Le, load64Le, hv]

theorem byte_leBytes {n i : Nat} (v : Nat) (hi : i < n) :
    byte (leBytes n v) i = UInt8.ofNat (v / 256 ^ i) := by
  induction n generalizing v i with
  | zero => cases hi
  | succ n ih =>
    cases i with
    | zero => rw [Nat.pow_zero, Nat.div_one]; rfl
    | succ i =>
      have h := ih (v / 256) (Nat.lt_of_succ_lt_succ hi)
      rw [Nat.div_div_eq_div_mul, ← Nat.pow_succ'] at h
      exact h

theorem byte_store64Le (w : UInt64) {i : Nat} (hi : i < 8) :
    byte (store64Le w) i = (w >>> (.ofNat (8 * i))).toUInt8 := by
  have hshift : (UInt64.ofNat (8 * i)).toNat % 64 = 8 * i := by
    rw [UInt64.toNat_ofNat']
    omega
  rw [store64Le, byte_leBytes _ hi]
  apply UInt8.toNat_inj.1
  rw [UInt8.toNat_ofNat', UInt64.toNat_toUInt8, UInt64.toNat_shiftRight, hshift,
    Nat.shiftRight_eq_div_pow, Nat.pow_mul]

/-! ## Words that are set -/

section
variable {α : Type} (v : List α)

theorem getD_set_self {i : Nat} (x y : α) (h : i < v.length) : (v.set i x).getD i y = x := by
  rw [List.getD_eq_getElem?_getD, List.getElem?_set_self h, Option.getD_some]

theorem getD_set_ne {i j : Nat} (x y : α) (h : i ≠ j) : (v.set i x).getD j y = v.getD j y := by
  rw [List.getD_eq_getElem?_getD, List.getElem?_set_ne h, List.getD_eq_getElem?_getD]

/-- Four words that mix, each set twice, are those that are mixed outside the list. -/
theorem set_quad {a b c d : Nat} (z : α) (h : [a, b, c, d].Nodup)
    (hl : ∀ i ∈ [a, b, c, d], i < v.length) (f1 f2 f3 f4 f5 f6 f7 f8 : α → α → α) :
    (let v := v.set a (f1 (v.getD a z) (v.getD b z))
      let v := v.set d (f2 (v.getD d z) (v.getD a z))
      let v := v.set c (f3 (v.getD c z) (v.getD d z))
      let v := v.set b (f4 (v.getD b z) (v.getD c z))
      let v := v.set a (f5 (v.getD a z) (v.getD b z))
      let v := v.set d (f6 (v.getD d z) (v.getD a z))
      let v := v.set c (f7 (v.getD c z) (v.getD d z))
      v.set b (f8 (v.getD b z) (v.getD c z))) =
    let a1 := f1 (v.getD a z) (v.getD b z)
    let d1 := f2 (v.getD d z) a1
    let c1 := f3 (v.getD c z) d1
    let b1 := f4 (v.getD b z) c1
    let a2 := f5 a1 b1
    let d2 := f6 d1 a2
    let c2 := f7 c1 d2
    (((v.set a a2).set b (f8 b1 c2)).set c c2).set d d2 := by
  simp only [List.nodup_cons, List.mem_cons, List.not_mem_nil, or_false, not_or] at h
  simp only [List.mem_cons, List.not_mem_nil, or_false, forall_eq_or_imp, forall_eq] at hl
  obtain ⟨⟨hab, hac, had⟩, ⟨hbc, hbd⟩, hcd, -⟩ := h
  obtain ⟨ha, hb, hc, hd⟩ := hl
  simp only [getD_set_self, getD_set_ne, List.length_set, ha, hb, hc, hd, ne_eq, hab, hac, had, hbc,
    hbd, hcd, Ne.symm hab, Ne.symm hac, Ne.symm had, Ne.symm hbc, Ne.symm hbd, Ne.symm hcd,
    not_false_eq_true]
  refine List.ext_getElem? fun i => ?_
  simp only [List.getElem?_set, List.length_set]
  grind

end

end Lib
