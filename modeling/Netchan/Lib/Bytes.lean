import Mathlib.Data.List.Basic
import Mathlib.Tactic.Ring

/-!
# Flat byte memory and big-endian fields

* `Mem`: a byte memory addressed by offset. `Mem.write` is a `memcpy` into it, `Mem.move` a
  `memmove` inside it and `Mem.read` the bytes of a range.
* `rd16`/`rd32` read a big-endian field of a byte string, `wr16`/`wr32` are its bytes;
  `rd16_wr16`, `rd32_wr32` are the round trips.
-/

namespace Lib

/-! The sizes of the small tables are positive: literals of `Fin 2`, `Fin 16`, `Fin 64` and `Fin 256`
find it here. -/

instance neZero_2 : NeZero 2 := ⟨by decide⟩

instance neZero_16 : NeZero 16 := ⟨by decide⟩

instance neZero_64 : NeZero 64 := ⟨by decide⟩

instance neZero_256 : NeZero 256 := ⟨by decide⟩

/-- A byte memory, addressed by the offset from its base. -/
def Mem := Nat → UInt8

namespace Mem

/-- `memcpy (base + a, d, |d|)`. -/
def write (m : Mem) (a : Nat) (d : List UInt8) : Mem := fun x =>
  if a ≤ x ∧ x < a + d.length then d.getD (x - a) 0 else m x

/-- `memmove (base + dst, base + src, n)`: the source is read before anything is written. -/
def move (m : Mem) (dst src n : Nat) : Mem := fun x =>
  if dst ≤ x ∧ x < dst + n then m (x - dst + src) else m x

/-- The `n` bytes at `a`. -/
def read (m : Mem) (a n : Nat) : List UInt8 := (List.range n).map fun i => m (a + i)

/-- The memory from `base + 1` on. -/
def tail (m : Mem) : Mem := fun x => m (x + 1)

/-- A byte at `base`, and a memory from `base + 1` on. -/
def cons (b : UInt8) (m : Mem) : Mem := fun x =>
  match x with
  | 0 => b
  | x + 1 => m x

@[simp] theorem length_read (m : Mem) (a n : Nat) : (m.read a n).length = n := by simp [read]

theorem read_congr {m m' : Mem} {a n : Nat} (h : ∀ x, a ≤ x → x < a + n → m' x = m x) :
    m'.read a n = m.read a n :=
  List.map_congr_left fun i hi => h _ (by omega) (by have := List.mem_range.1 hi; omega)

theorem read_write_self (m : Mem) (a : Nat) (d : List UInt8) :
    (m.write a d).read a d.length = d := by
  apply List.ext_getElem (by simp)
  intro i h1 h2
  simp only [read, List.getElem_map, List.getElem_range, write]
  rw [if_pos (by omega), Nat.add_sub_cancel_left, List.getD_eq_getElem?_getD,
    List.getElem?_eq_getElem h2, Option.getD_some]

@[simp] theorem write_nil (m : Mem) (a : Nat) : m.write a [] = m := by
  funext x
  exact if_neg (by simp)

theorem write_outside (m : Mem) {a x : Nat} {d : List UInt8} (h : x < a ∨ a + d.length ≤ x) :
    m.write a d x = m x :=
  if_neg (by omega)

theorem write_comm (m : Mem) {a b : Nat} {d e : List UInt8}
    (h : a + d.length ≤ b ∨ b + e.length ≤ a) :
    (m.write a d).write b e = (m.write b e).write a d := by
  funext x
  unfold write
  split <;> split <;> first | rfl | omega

theorem write_append (m : Mem) (a : Nat) (d e : List UInt8) :
    (m.write a d).write (a + d.length) e = m.write a (d ++ e) := by
  funext x
  simp only [write, List.length_append, List.getD_eq_getElem?_getD]
  by_cases h1 : a ≤ x ∧ x < a + d.length
  · rw [if_neg (by omega), if_pos h1, if_pos (by omega), List.getElem?_append_left (by omega)]
  · by_cases h2 : a + d.length ≤ x ∧ x < a + d.length + e.length
    · rw [if_pos h2, if_pos (by omega), List.getElem?_append_right (by omega), Nat.sub_sub]
    · rw [if_neg h2, if_neg h1, if_neg (by omega)]

theorem append_write (m : Mem) (a : Nat) (d e : List UInt8) :
    (m.write (a + d.length) e).write a d = m.write a (d ++ e) := by
  funext x
  simp only [write, List.length_append, List.getD_eq_getElem?_getD]
  by_cases h1 : a ≤ x ∧ x < a + d.length
  · rw [if_pos h1, if_pos (by omega), List.getElem?_append_left (by omega)]
  · rw [if_neg h1]
    by_cases h2 : a + d.length ≤ x ∧ x < a + d.length + e.length
    · rw [if_pos h2, if_pos (by omega), List.getElem?_append_right (by omega), Nat.sub_sub]
    · rw [if_neg h2, if_neg (by omega)]

theorem read_cons (b : UInt8) (m : Mem) (n : Nat) : (cons b m).read 0 (n + 1) = b :: m.read 0 n := by
  simp only [read, List.range_succ_eq_map, List.map_cons, List.map_map, Nat.zero_add]
  rfl

theorem read_move (m : Mem) (dst src n : Nat) : (m.move dst src n).read dst n = m.read src n := by
  refine List.map_congr_left fun i hi => ?_
  have := List.mem_range.1 hi
  rw [move, if_pos (by omega), Nat.add_sub_cancel_left, Nat.add_comm]

/-- A prefix of a longer range reads back the shorter one. -/
theorem take_read (m : Mem) (a : Nat) {k n : Nat} (h : k ≤ n) :
    (m.read a n).take k = m.read a k := by
  simp [read, ← List.map_take, List.take_range, Nat.min_eq_left h]

theorem read_append (m : Mem) (a j k : Nat) : m.read a j ++ m.read (a + j) k = m.read a (j + k) := by
  simp only [read, List.range_add, List.map_append, List.map_map]
  congr 1
  exact List.map_congr_left fun i _ => by simp [Nat.add_assoc]

/-- A range inside a longer one is a part of it. -/
theorem read_inside (m : Mem) (a : Nat) {off len n : Nat} (hl : off + len ≤ n) :
    m.read (a + off) len = ((m.read a n).drop off).take len := by
  obtain ⟨k, rfl⟩ := Nat.exists_eq_add_of_le hl
  rw [Nat.add_assoc, ← read_append, List.drop_left' (length_read ..), take_read _ _ (by omega)]

theorem read_of_read {m m' : Mem} {a off len n : Nat} (h : m'.read a n = m.read a n)
    (hl : off + len ≤ n) : m'.read (a + off) len = m.read (a + off) len := by
  rw [read_inside m' a hl, read_inside m a hl, h]

end Mem

/-! ## Big-endian fields -/

/-- Byte `i` of a packet. -/
def byte (p : List UInt8) (i : Nat) : UInt8 := p.getD i 0

def wr16 (v : UInt16) : List UInt8 := [UInt8.ofNat (v.toNat / 2 ^ 8), UInt8.ofNat v.toNat]

def wr32 (v : UInt32) : List UInt8 :=
  [UInt8.ofNat (v.toNat / 2 ^ 24), UInt8.ofNat (v.toNat / 2 ^ 16), UInt8.ofNat (v.toNat / 2 ^ 8),
    UInt8.ofNat v.toNat]

/-- The 16-bit field at `i`. -/
def rd16 (p : List UInt8) (i : Nat) : UInt16 :=
  UInt16.ofNat ((byte p i).toNat * 2 ^ 8 + (byte p (i + 1)).toNat)

/-- The 32-bit field at `i`. -/
def rd32 (p : List UInt8) (i : Nat) : UInt32 :=
  UInt32.ofNat ((byte p i).toNat * 2 ^ 24 + (byte p (i + 1)).toNat * 2 ^ 16 +
    (byte p (i + 2)).toNat * 2 ^ 8 + (byte p (i + 3)).toNat)

@[simp] theorem length_wr16 (v : UInt16) : (wr16 v).length = 2 := rfl
@[simp] theorem length_wr32 (v : UInt32) : (wr32 v).length = 4 := rfl

@[simp] theorem byte_cons_zero (b : UInt8) (p : List UInt8) : byte (b :: p) 0 = b := rfl
@[simp] theorem byte_cons_succ (b : UInt8) (p : List UInt8) (i : Nat) :
    byte (b :: p) (i + 1) = byte p i := rfl

/-- A field of a byte string is read at the same place of a longer one. -/
theorem rd32_cons (b : UInt8) (p : List UInt8) (i : Nat) : rd32 (b :: p) (i + 1) = rd32 p i := rfl

theorem rd16_wr16 (v : UInt16) (p : List UInt8) : rd16 (wr16 v ++ p) 0 = v := by
  have hv : v.toNat < 2 ^ 16 := v.toNat_lt
  apply UInt16.toNat_inj.1
  simp only [rd16, wr16, List.cons_append, List.nil_append, byte_cons_zero, byte_cons_succ,
    UInt16.toNat_ofNat', UInt8.toNat_ofNat']
  omega

theorem rd32_wr32 (v : UInt32) (p : List UInt8) : rd32 (wr32 v ++ p) 0 = v := by
  have hv : v.toNat < 2 ^ 32 := v.toNat_lt
  apply UInt32.toNat_inj.1
  simp only [rd32, wr32, List.cons_append, List.nil_append, byte_cons_zero, byte_cons_succ,
    UInt32.toNat_ofNat', UInt8.toNat_ofNat']
  omega

end Lib
