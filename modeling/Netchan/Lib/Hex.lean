import Netchan.Lib.Fields
import Netchan.Lib.Text
import Netchan.Lib.Lines

/-!
# Hexadecimal text

* `hexEncode` writes two digits a byte, high half first; `hexRead` reads digits in either case, up
  to the first pair that is none.
* `hexRead_encode` is the round trip; `hexEncode_plain`: the text has no white space and no NUL.
-/

namespace Lib

/-- The digit of a half byte. -/
def hexDigit (d : UInt8) : UInt8 := (ascii "0123456789abcdef").getD d.toNat 0

def hexEncode : List UInt8 → List UInt8
  | [] => []
  | b :: l => hexDigit (b >>> 4) :: hexDigit (b &&& 0x0f) :: hexEncode l

/-- The value of a digit. -/
def hexNibble (ch : UInt8) : Option UInt8 :=
  if 48 ≤ ch ∧ ch ≤ 57 then some (ch - 48)
  else if 97 ≤ ch ∧ ch ≤ 102 then some (ch - 97 + 10)
  else if 65 ≤ ch ∧ ch ≤ 70 then some (ch - 65 + 10)
  else none

/-- The bytes of the pairs of digits that start a text. -/
def hexRead : List UInt8 → List UInt8
  | hi :: lo :: s =>
    match hexNibble hi, hexNibble lo with
    | some hi, some lo => (hi <<< 4 ||| lo) :: hexRead s
    | _, _ => []
  | _ => []

theorem hexDigit_props {d : UInt8} (h : d < 16) :
    hexNibble (hexDigit d) = some d ∧ isspace (hexDigit d) = false ∧ hexDigit d ≠ 0 ∧
      hexDigit d ≠ 35 := by
  have key : ∀ n < 16, hexNibble (hexDigit (UInt8.ofNat n)) = some (UInt8.ofNat n) ∧
      isspace (hexDigit (UInt8.ofNat n)) = false ∧ hexDigit (UInt8.ofNat n) ≠ 0 ∧
      hexDigit (UInt8.ofNat n) ≠ 35 := by
    decide
  rw [← UInt8.ofNat_toNat (x := d)]
  exact key _ (UInt8.lt_iff_toNat_lt.1 h)

theorem halves (b : UInt8) :
    b >>> 4 < 16 ∧ b &&& 0x0f < 16 ∧ (b >>> 4) <<< 4 ||| (b &&& 0x0f) = b := by
  have key : ∀ n < 256, UInt8.ofNat n >>> 4 < 16 ∧ UInt8.ofNat n &&& 0x0f < 16 ∧
      (UInt8.ofNat n >>> 4) <<< 4 ||| (UInt8.ofNat n &&& 0x0f) = UInt8.ofNat n := by
    decide +kernel
  rw [← UInt8.ofNat_toNat (x := b)]
  exact key _ b.toNat_lt

@[simp] theorem length_hexEncode (l : List UInt8) : (hexEncode l).length = l.length * 2 := by
  induction l with
  | nil => rfl
  | cons b l ih => simp only [hexEncode, List.length_cons, ih]; omega

theorem hexRead_encode (l : List UInt8) : hexRead (hexEncode l) = l := by
  induction l with
  | nil => rfl
  | cons b l ih =>
    obtain ⟨hhi, hlo, hb⟩ := halves b
    simp only [hexEncode, hexRead, (hexDigit_props hhi).1, (hexDigit_props hlo).1, ih, hb]

theorem hexEncode_digits {l : List UInt8} {c : UInt8} (h : c ∈ hexEncode l) :
    isspace c = false ∧ c ≠ 0 ∧ c ≠ 35 := by
  induction l with
  | nil => exact absurd h List.not_mem_nil
  | cons b l ih =>
    obtain ⟨hhi, hlo, -⟩ := halves b
    rcases List.mem_cons.1 h with rfl | h
    · exact (hexDigit_props hhi).2
    · rcases List.mem_cons.1 h with rfl | h
      · exact (hexDigit_props hlo).2
      · exact ih h

theorem hexEncode_plain (l : List UInt8) : Plain (hexEncode l) := fun _ h => (hexEncode_digits h).1

end Lib
