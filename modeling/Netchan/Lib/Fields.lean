import Netchan.Lib.Bytes
import Mathlib.Data.List.Induction

/-!
# Byte arrays and the bytes of numbers

* `Bytes n`: an array of `n` bytes; `bytesAt` reads one at an offset of a byte string.
* `beBytes n v` are the `n` low bytes of a number, most significant first, `beVal` is their value;
  `beVal_beBytes` and `beBytes_beVal` are the round trips.
* `leBytes`, `leVal`: the same, least significant first.
-/

namespace Lib

/-- An array of `n` bytes. -/
abbrev Bytes (n : Nat) := { b : List UInt8 // b.length = n }

/-- The array of zeros. -/
def Bytes.zero (n : Nat) : Bytes n := ⟨List.replicate n 0, List.length_replicate⟩

/-- The `n` bytes at an offset. -/
def bytesAt (n : Nat) (p : List UInt8) (off : Nat) : Bytes n :=
  ⟨(List.range n).map fun i => byte p (off + i), by simp⟩

theorem bytesAt_append {n : Nat} (l : List UInt8) (b : Bytes n) (rest : List UInt8) :
    bytesAt n (l ++ (b.val ++ rest)) l.length = b := by
  apply Subtype.ext
  apply List.ext_getElem
  · simp [bytesAt, b.property]
  · intro i h1 h2
    simp only [bytesAt, List.getElem_map, List.getElem_range, byte, List.getD_eq_getElem?_getD]
    rw [List.getElem?_append_right (Nat.le_add_right _ _), Nat.add_sub_cancel_left,
      List.getElem?_append_left h2, List.getElem?_eq_getElem h2, Option.getD_some]

theorem bytesAt_eq {n off : Nat} {p : List UInt8} (h : off + n ≤ p.length) :
    (bytesAt n p off).val = (p.drop off).take n := by
  apply List.ext_getElem
  · simp [bytesAt]
    omega
  · intro i h1 h2
    have hi : i < n := by simpa [bytesAt] using h1
    simp only [bytesAt, List.getElem_map, List.getElem_range, byte, List.getElem_take,
      List.getElem_drop]
    rw [List.getD_eq_getElem?_getD, List.getElem?_eq_getElem (by omega), Option.getD_some]

/-! ## Big-endian numbers -/

/-- The `n` low bytes of a number, from the last to the first. -/
def beBytes : Nat → Nat → List UInt8
  | 0, _ => []
  | n + 1, v => beBytes n (v / 256) ++ [UInt8.ofNat (v % 256)]

/-- The value of a big-endian number. -/
def beVal (l : List UInt8) : Nat := l.foldl (fun v b => v * 256 + b.toNat) 0

@[simp] theorem length_beBytes (n v : Nat) : (beBytes n v).length = n := by
  induction n generalizing v with
  | zero => rfl
  | succ n ih => simp [beBytes, ih]

theorem beVal_concat (l : List UInt8) (b : UInt8) : beVal (l ++ [b]) = beVal l * 256 + b.toNat := by
  simp [beVal]

theorem beVal_beBytes (n v : Nat) : beVal (beBytes n v) = v % 256 ^ n := by
  induction n generalizing v with
  | zero =>
    rw [Nat.pow_zero, Nat.mod_one]
    rfl
  | succ n ih =>
    have hb : (UInt8.ofNat (v % 256)).toNat = v % 256 := by simp
    rw [beBytes, beVal_concat, ih, hb, Nat.pow_succ, Nat.mul_comm (256 ^ n), Nat.mod_mul]
    omega

theorem beVal_lt (l : List UInt8) : beVal l < 256 ^ l.length := by
  induction l using List.reverseRecOn with
  | nil => decide
  | append_singleton l b ih =>
    have hb := b.toNat_lt
    rw [beVal_concat, List.length_append, List.length_singleton, Nat.pow_succ]
    omega

theorem beBytes_beVal (l : List UInt8) : beBytes l.length (beVal l) = l := by
  induction l using List.reverseRecOn with
  | nil => rfl
  | append_singleton l b ih =>
    have hb := b.toNat_lt
    rw [beVal_concat, List.length_append, List.length_singleton, beBytes,
      show (beVal l * 256 + b.toNat) / 256 = beVal l by omega, ih,
      show (beVal l * 256 + b.toNat) % 256 = b.toNat by omega, UInt8.ofNat_toNat]

/-- The array of a number. -/
def Bytes.ofNat (n v : Nat) : Bytes n := ⟨beBytes n v, length_beBytes n v⟩

/-! ## Little-endian numbers -/

/-- The `n` low bytes of a number, from the first to the last. -/
def leBytes : Nat → Nat → List UInt8
  | 0, _ => []
  | n + 1, v => UInt8.ofNat v :: leBytes n (v / 256)

/-- The value of a little-endian number. -/
def leVal : List UInt8 → Nat
  | [] => 0
  | b :: l => b.toNat + 256 * leVal l

@[simp] theorem length_leBytes (n v : Nat) : (leBytes n v).length = n := by
  induction n generalizing v with
  | zero => rfl
  | succ n ih => simp [leBytes, ih]

theorem leVal_leBytes (n v : Nat) : leVal (leBytes n v) = v % 256 ^ n := by
  induction n generalizing v with
  | zero =>
    rw [Nat.pow_zero, Nat.mod_one]
    rfl
  | succ n ih =>
    have hb : (UInt8.ofNat v).toNat = v % 256 := by simp
    rw [leBytes, leVal, ih, hb, Nat.pow_succ, Nat.mul_comm (256 ^ n), Nat.mod_mul]

theorem leVal_lt (l : List UInt8) : leVal l < 256 ^ l.length := by
  induction l with
  | nil => decide
  | cons b l ih =>
    have hb := b.toNat_lt
    rw [leVal, List.length_cons, Nat.pow_succ]
    omega

theorem leBytes_leVal (l : List UInt8) : leBytes l.length (leVal l) = l := by
  induction l with
  | nil => rfl
  | cons b l ih =>
    have hb := b.toNat_lt
    rw [List.length_cons, leBytes, leVal, show (b.toNat + 256 * leVal l) / 256 = leVal l by omega, ih]
    refine congrArg (· :: l) (UInt8.toNat_inj.1 ?_)
    rw [UInt8.toNat_ofNat']
    omega

end Lib
