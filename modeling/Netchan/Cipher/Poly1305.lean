import Netchan.Lib.Blocks
import Netchan.Lib.LittleEndian
import Netchan.Lib.Text

/-!
# Poly1305

`third_party/monocypher.c`: the accumulator is a number of 130 bits in five words, which is kept
below `5 * 2^128` and reduced once, at the end. `Rfc8439.mac` is the code of a whole message as
RFC 8439 has it.
-/

namespace Netchan.Cipher

open Lib

/-- `gap`, on `size_t`. -/
def gap (x pow2 : UInt64) : UInt64 := (~~~x + 1) &&& (pow2 - 1)

/-- Four words. -/
structure Quad where
  w0 : UInt32
  w1 : UInt32
  w2 : UInt32
  w3 : UInt32

/-- `load32_le_buf` of four words. -/
def Quad.load (s : List UInt8) (i : Nat) : Quad :=
  ⟨load32Le s i, load32Le s (i + 4), load32Le s (i + 8), load32Le s (i + 12)⟩

/-- The words `h` of the accumulator. -/
structure Acc where
  h0 : UInt32
  h1 : UInt32
  h2 : UInt32
  h3 : UInt32
  h4 : UInt32

/-- `crypto_poly1305_ctx`; `c` is the buffer up to `c_idx`. -/
structure Poly1305 where
  c : List UInt8
  r : Quad
  pad : Quad
  h : Acc

/-- The low half of a word. -/
def low (x : UInt64) : UInt64 := x &&& 0xffffffff

/-- The products `x0`, …, `x4`, whose carries are not propagated. -/
structure Columns where
  x0 : UInt64
  x1 : UInt64
  x2 : UInt64
  x3 : UInt64
  x4 : UInt32

/-- `(h + c) * r`. The factors have 32 bits, and `s0`, …, `s3` have 33. -/
def columns (r : Quad) (s0 s1 s2 s3 : UInt64) (s4 : UInt32) : Columns :=
  let rr0 := (r.w0 >>> 2) * 5
  let rr1 := (r.w1 >>> 2) + r.w1
  let rr2 := (r.w2 >>> 2) + r.w2
  let rr3 := (r.w3 >>> 2) + r.w3
  let rr4 := r.w0 &&& 3
  { x0 := s0 * r.w0.toUInt64 + s1 * rr3.toUInt64 + s2 * rr2.toUInt64 + s3 * rr1.toUInt64 +
      (s4 * rr0).toUInt64
    x1 := s0 * r.w1.toUInt64 + s1 * r.w0.toUInt64 + s2 * rr3.toUInt64 + s3 * rr2.toUInt64 +
      (s4 * rr1).toUInt64
    x2 := s0 * r.w2.toUInt64 + s1 * r.w1.toUInt64 + s2 * r.w0.toUInt64 + s3 * rr3.toUInt64 +
      (s4 * rr2).toUInt64
    x3 := s0 * r.w3.toUInt64 + s1 * r.w2.toUInt64 + s2 * r.w1.toUInt64 + s3 * r.w0.toUInt64 +
      (s4 * rr3).toUInt64
    x4 := s4 * rr4 }

/-- The partial reduction modulo `2^130 - 5`. -/
def reduce (x : Columns) : Acc :=
  let u5 := (x.x4.toUInt64 + x.x3 >>> 32).toUInt32
  let u0 := ((u5 >>> 2) * 5).toUInt64 + low x.x0
  let u1 := u0 >>> 32 + low x.x1 + x.x0 >>> 32
  let u2 := u1 >>> 32 + low x.x2 + x.x1 >>> 32
  let u3 := u2 >>> 32 + low x.x3 + x.x2 >>> 32
  let u4 := (u3 >>> 32 + (u5 &&& 3).toUInt64).toUInt32
  ⟨(low u0).toUInt32, (low u1).toUInt32, (low u2).toUInt32, (low u3).toUInt32, u4⟩

/-- The body of the loop of `poly_blocks`. -/
def polyBlock (r : Quad) (last : UInt32) (h : Acc) (inp : List UInt8) : Acc :=
  reduce (columns r (h.h0.toUInt64 + (load32Le inp 0).toUInt64)
    (h.h1.toUInt64 + (load32Le inp 4).toUInt64) (h.h2.toUInt64 + (load32Le inp 8).toUInt64)
    (h.h3.toUInt64 + (load32Le inp 12).toUInt64) (h.h4 + last))

/-- `poly_blocks`: `n` blocks of 16 bytes. -/
def polyBlocks (r : Quad) (last : UInt32) : Nat → List UInt8 → Acc → Acc
  | 0, _, h => h
  | n + 1, inp, h => polyBlocks r last n (inp.drop 16) (polyBlock r last h (inp.take 16))

/-- `crypto_poly1305_init`. -/
def cryptoPoly1305Init (key : Bytes 32) : Poly1305 :=
  let r := Quad.load key.val 0
  { c := [], pad := .load key.val 16, h := ⟨0, 0, 0, 0, 0⟩
    r := ⟨r.w0 &&& 0x0fffffff, r.w1 &&& 0x0ffffffc, r.w2 &&& 0x0ffffffc, r.w3 &&& 0x0ffffffc⟩ }

/-- `crypto_poly1305_update`. -/
def cryptoPoly1305Update (ctx : Poly1305) (message : List UInt8) : Poly1305 :=
  if message.length = 0 then ctx
  else
    let aligned := min (gap (.ofNat ctx.c.length) 16).toNat message.length
    let ctx := { ctx with c := ctx.c ++ message.take aligned }
    let message := message.drop aligned
    let ctx :=
      if ctx.c.length = 16 then { ctx with h := polyBlocks ctx.r 1 1 ctx.c ctx.h, c := [] } else ctx
    let nbBlocks := message.length >>> 4
    { ctx with
      h := polyBlocks ctx.r 1 nbBlocks message ctx.h
      c := ctx.c ++ message.drop (nbBlocks <<< 4) }

/-- The words that `crypto_poly1305_final` stores, from the carry `c` on. -/
def polyStore (c : UInt64) : List (UInt32 × UInt32) → List UInt8
  | [] => []
  | (h, pad) :: rest =>
    let c := c + (h.toUInt64 + pad.toUInt64)
    store32Le c.toUInt32 ++ polyStore (c >>> 32) rest

/-- The carry back to the beginning: 5 if `2^130 - 5` has to be subtracted. -/
def polyCarry (h : Acc) : UInt64 :=
  let c : UInt64 := 5
  let c := (c + h.h0.toUInt64) >>> 32
  let c := (c + h.h1.toUInt64) >>> 32
  let c := (c + h.h2.toUInt64) >>> 32
  let c := (c + h.h3.toUInt64) >>> 32
  let c := c + h.h4.toUInt64
  (c >>> 2) * 5

/-- `crypto_poly1305_final`. -/
def cryptoPoly1305Final (ctx : Poly1305) : List UInt8 :=
  let h :=
    if ctx.c.length ≠ 0 then
      polyBlocks ctx.r 0 1 (ctx.c ++ 1 :: List.replicate (15 - ctx.c.length) 0) ctx.h
    else ctx.h
  polyStore (polyCarry h)
    [(h.h0, ctx.pad.w0), (h.h1, ctx.pad.w1), (h.h2, ctx.pad.w2), (h.h3, ctx.pad.w3)]

/-- `crypto_poly1305`. -/
def cryptoPoly1305 (message : List UInt8) (key : Bytes 32) : List UInt8 :=
  cryptoPoly1305Final (cryptoPoly1305Update (cryptoPoly1305Init key) message)

/-! ## RFC 8439 -/

namespace Rfc8439

def p : Nat := 2 ^ 130 - 5

def clamp (r : Nat) : Nat := r &&& 0x0ffffffc0ffffffc0ffffffc0fffffff

/-- One block: a byte 1 is put after it, the number is added and the sum multiplied by `r`. -/
def absorb (r a : Nat) (block : List UInt8) : Nat := (a + leVal (block ++ [1])) * r % p

/-- The code of a message: its blocks of 16 bytes, and what is left of it. -/
def mac (key : Bytes 32) (m : List UInt8) : List UInt8 :=
  let r := clamp (leVal (bytesAt 16 key.val 0).val)
  let a := (blocks 16 m).foldl (absorb r) 0
  let rest := m.drop (m.length / 16 * 16)
  let a := if rest = [] then a else absorb r a rest
  leBytes 16 (a + leVal (bytesAt 16 key.val 16).val)

end Rfc8439

/-- The vector of RFC 8439, 2.5.2. -/
example : cryptoPoly1305 (ascii "Cryptographic Forum Research Group")
    (.ofNat 32 0x85d6be7857556d337f4452fe42d506a80103808afb0db2fd4abff6af4149f51b) =
    (Bytes.ofNat 16 0xa8061dc1305136c6c22b8baf0c0127a9).val := by decide +kernel

end Netchan.Cipher
