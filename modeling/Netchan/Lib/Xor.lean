import Netchan.Lib.Fields

/-!
# Byte strings over each other

`xorBytes ks text`: the exclusive or of two strings, byte by byte. A string that is put over a text
twice is gone (`xorBytes_xorBytes`), and a text may be taken in pieces (`xorBytes_append`).
-/

namespace Lib

variable {α β γ : Type}

/-- Two strings are combined up to the end of a piece of the first, and after it. -/
theorem zipWith_append_drop (f : α → β → γ) (a b : List α) (t : List β) :
    List.zipWith f (a ++ b) t = List.zipWith f a t ++ List.zipWith f b (t.drop a.length) := by
  induction a generalizing t with
  | nil => rfl
  | cons x a ih =>
    cases t with
    | nil => simp
    | cons y t => exact congrArg (f x y :: ·) (ih t)

/-- One string over another, up to the end of the shorter one. -/
def xorBytes (ks text : List UInt8) : List UInt8 := List.zipWith (· ^^^ ·) ks text

theorem xorBytes_append (a b text : List UInt8) :
    xorBytes (a ++ b) text = xorBytes a text ++ xorBytes b (text.drop a.length) :=
  zipWith_append_drop _ a b text

@[simp] theorem length_xorBytes (ks text : List UInt8) :
    (xorBytes ks text).length = min ks.length text.length := List.length_zipWith

theorem xorBytes_take (ks text : List UInt8) :
    xorBytes ks text = xorBytes ks (text.take ks.length) := by
  induction ks generalizing text with
  | nil => rfl
  | cons k ks ih =>
    cases text with
    | nil => rfl
    | cons b text => exact congrArg ((k ^^^ b) :: ·) (ih text)

theorem xorBytes_xorBytes {ks text : List UInt8} (h : text.length ≤ ks.length) :
    xorBytes ks (xorBytes ks text) = text := by
  induction ks generalizing text with
  | nil => rw [List.length_eq_zero_iff.1 (Nat.le_zero.1 h)]; rfl
  | cons k ks ih =>
    cases text with
    | nil => rfl
    | cons b text =>
      have hb : k ^^^ (k ^^^ b) = b := by rw [← UInt8.xor_assoc, UInt8.xor_self, UInt8.zero_xor]
      exact (congrArg (· :: _) hb).trans (congrArg (b :: ·) (ih (Nat.le_of_succ_le_succ h)))

theorem xorBytes_zeros {ks : List UInt8} {n : Nat} (h : ks.length ≤ n) :
    xorBytes ks (List.replicate n 0) = ks := by
  induction ks generalizing n with
  | nil => rfl
  | cons k ks ih =>
    cases n with
    | zero => cases h
    | succ n =>
      have hk : k ^^^ 0 = k := UInt8.xor_zero
      exact (congrArg (· :: _) hk).trans (congrArg (k :: ·) (ih (Nat.le_of_succ_le_succ h)))

theorem leBytes_xor (n a b : Nat) :
    leBytes n (a ^^^ b) = xorBytes (leBytes n a) (leBytes n b) := by
  induction n generalizing a b with
  | zero => rfl
  | succ n ih =>
    rw [leBytes, leBytes, leBytes, xorBytes, List.zipWith_cons_cons]
    rw [UInt8.ofNat_xor, Nat.xor_div_two_pow (n := 8), ih]
    rfl

theorem map_xor_byte {a b : List UInt8} {n : Nat} (ha : n ≤ a.length) (hb : n ≤ b.length) :
    (List.range n).map (fun i => byte a i ^^^ byte b i) = xorBytes (a.take n) b := by
  apply List.ext_getElem
  · rw [List.length_map, List.length_range, length_xorBytes, List.length_take]
    omega
  · intro i h1 h2
    have hi : i < n := by simpa using h1
    simp only [List.getElem_map, List.getElem_range, xorBytes, List.getElem_zipWith,
      List.getElem_take, byte, List.getD_eq_getElem?_getD]
    rw [List.getElem?_eq_getElem (by omega), List.getElem?_eq_getElem (by omega)]
    rfl

end Lib
