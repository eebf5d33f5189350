import Netchan.Lib.LittleEndian
import Netchan.Lib.Text

/-!
# ChaCha20

`third_party/monocypher.c`: the cipher with a counter of 64 bits, in two words. A text is taken as
words while there are whole blocks, and what is left of it as bytes.

`Rfc8439` has the cipher as RFC 8439 defines it, with a counter of 32 bits and a nonce of 12 bytes,
and `hchacha20`, which derives the key of XChaCha20. `Djb.stream` is the key stream of this file, as
the blocks of a counter that is one number.
-/

namespace Netchan.Cipher

open Lib

/-- `rotl32`. -/
def rotl32 (x n : UInt32) : UInt32 := (x <<< n) ^^^ (x >>> (32 - n))

/-- The words of a block. -/
structure Words16 where
  t0 : UInt32
  t1 : UInt32
  t2 : UInt32
  t3 : UInt32
  t4 : UInt32
  t5 : UInt32
  t6 : UInt32
  t7 : UInt32
  t8 : UInt32
  t9 : UInt32
  t10 : UInt32
  t11 : UInt32
  t12 : UInt32
  t13 : UInt32
  t14 : UInt32
  t15 : UInt32

def Words16.toList (w : Words16) : List UInt32 :=
  [w.t0, w.t1, w.t2, w.t3, w.t4, w.t5, w.t6, w.t7, w.t8, w.t9, w.t10, w.t11, w.t12, w.t13, w.t14,
    w.t15]

/-- `QUARTERROUND`. -/
def quarterRound (a b c d : UInt32) : UInt32 × UInt32 × UInt32 × UInt32 :=
  let a := a + b
  let d := rotl32 (d ^^^ a) 16
  let c := c + d
  let b := rotl32 (b ^^^ c) 12
  let a := a + b
  let d := rotl32 (d ^^^ a) 8
  let c := c + d
  let b := rotl32 (b ^^^ c) 7
  (a, b, c, d)

/-- Two rounds: the columns and the diagonals. -/
def doubleRound (w : Words16) : Words16 :=
  let (t0, t4, t8, t12) := quarterRound w.t0 w.t4 w.t8 w.t12
  let (t1, t5, t9, t13) := quarterRound w.t1 w.t5 w.t9 w.t13
  let (t2, t6, t10, t14) := quarterRound w.t2 w.t6 w.t10 w.t14
  let (t3, t7, t11, t15) := quarterRound w.t3 w.t7 w.t11 w.t15
  let (t0, t5, t10, t15) := quarterRound t0 t5 t10 t15
  let (t1, t6, t11, t12) := quarterRound t1 t6 t11 t12
  let (t2, t7, t8, t13) := quarterRound t2 t7 t8 t13
  let (t3, t4, t9, t14) := quarterRound t3 t4 t9 t14
  ⟨t0, t1, t2, t3, t4, t5, t6, t7, t8, t9, t10, t11, t12, t13, t14, t15⟩

/-- `chacha20_rounds`. -/
def chacha20Rounds (w : Words16) : Words16 := (List.range 10).foldl (fun w _ => doubleRound w) w

/-- `store32_le_buf`. -/
def store32LeBuf (ws : List UInt32) : List UInt8 := ws.flatMap store32Le

def chacha20Constant : List UInt8 := ascii "expand 32-byte k"

/-- The words of the constant, a key, and four words more. -/
def chacha20Input (key : Bytes 32) (w12 w13 w14 w15 : UInt32) : Words16 :=
  let c := load32Le chacha20Constant
  let k := load32Le key.val
  ⟨c 0, c 4, c 8, c 12, k 0, k 4, k 8, k 12, k 16, k 20, k 24, k 28, w12, w13, w14, w15⟩

/-- `crypto_chacha20_h`. -/
def cryptoChacha20H (key : Bytes 32) (inp : Bytes 16) : List UInt8 :=
  let i := load32Le inp.val
  let b := chacha20Rounds (chacha20Input key (i 0) (i 4) (i 8) (i 12))
  store32LeBuf [b.t0, b.t1, b.t2, b.t3] ++ store32LeBuf [b.t12, b.t13, b.t14, b.t15]

/-- `pool[j] + input[j]`. -/
def poolWords (input : Words16) : List UInt32 :=
  List.zipWith (· + ·) (chacha20Rounds input).toList input.toList

/-- The counter counts on. -/
def bump (input : Words16) : Words16 :=
  let input := { input with t12 := input.t12 + 1 }
  if input.t12 = 0 then { input with t13 := input.t13 + 1 } else input

/-- The loop over the whole blocks: the cipher text, and the input words after it. -/
def wholeBlocks : Nat → Words16 → Option (List UInt8) → List UInt8 × Words16
  | 0, input, _ => ([], input)
  | n + 1, input, plain =>
    let out :=
      match plain with
      | some text => store32LeBuf
          (List.zipWith (· ^^^ ·) (poolWords input)
            ((List.range 16).map fun j => load32Le text (4 * j)))
      | none => store32LeBuf (poolWords input)
    let (rest, input) := wholeBlocks n (bump input) (plain.map (·.drop 64))
    (out ++ rest, input)

/-- `crypto_chacha20_djb`: the cipher text and the counter. The plain text may be `NULL`. -/
def cryptoChacha20Djb (plain : Option (List UInt8)) (textSize : Nat) (key : Bytes 32)
    (nonce : Bytes 8) (ctr : UInt64) : List UInt8 × UInt64 :=
  let input := chacha20Input key ctr.toUInt32 (ctr >>> 32).toUInt32 (load32Le nonce.val 0)
    (load32Le nonce.val 4)
  let nbBlocks := textSize >>> 6
  let (out, input) := wholeBlocks nbBlocks input plain
  let left := textSize &&& 63
  let out :=
    if left > 0 then
      let text := (plain.map (·.drop (64 * nbBlocks))).getD (List.replicate 128 0)
      let tmp := store32LeBuf (poolWords input)
      out ++ (List.range left).map fun i => byte tmp i ^^^ byte text i
    else out
  (out, input.t12.toUInt64 + (input.t13.toUInt64 <<< 32) + if left > 0 then 1 else 0)

/-! ## RFC 8439 -/

namespace Rfc8439

/-- `Qround`: a quarter round on four words of the state. -/
def qround (s : List UInt32) (x y z w : Nat) : List UInt32 :=
  let s := s.set x (s.getD x 0 + s.getD y 0)
  let s := s.set w (rotl32 (s.getD w 0 ^^^ s.getD x 0) 16)
  let s := s.set z (s.getD z 0 + s.getD w 0)
  let s := s.set y (rotl32 (s.getD y 0 ^^^ s.getD z 0) 12)
  let s := s.set x (s.getD x 0 + s.getD y 0)
  let s := s.set w (rotl32 (s.getD w 0 ^^^ s.getD x 0) 8)
  let s := s.set z (s.getD z 0 + s.getD w 0)
  s.set y (rotl32 (s.getD y 0 ^^^ s.getD z 0) 7)

/-- `inner_block`: the columns and the diagonals. -/
def innerBlock (s : List UInt32) : List UInt32 :=
  let s := qround s 0 4 8 12
  let s := qround s 1 5 9 13
  let s := qround s 2 6 10 14
  let s := qround s 3 7 11 15
  let s := qround s 0 5 10 15
  let s := qround s 1 6 11 12
  let s := qround s 2 7 8 13
  qround s 3 4 9 14

/-- The 20 rounds. -/
def rounds (s : List UInt32) : List UInt32 := (List.range 10).foldl (fun s _ => innerBlock s) s

/-- `chacha20_block`, before its words are serialized. -/
def block (s : List UInt32) : List UInt32 := List.zipWith (· + ·) (rounds s) s

/-- The first `n` words of a string. -/
def words (n : Nat) (s : List UInt8) : List UInt32 := (List.range n).map fun i => load32Le s (4 * i)

def serialize (s : List UInt32) : List UInt8 := s.flatMap fun w => leBytes 4 w.toNat

/-- The constants, a key, and four words more. -/
def state (key : Bytes 32) (rest : List UInt32) : List UInt32 :=
  [0x61707865, 0x3320646e, 0x79622d32, 0x6b206574] ++ words 8 key.val ++ rest

def chacha20Block (key : Bytes 32) (counter : UInt32) (nonce : Bytes 12) : List UInt8 :=
  serialize (block (state key (counter :: words 3 nonce.val)))

/-- The first `n` bytes of the key stream of `chacha20_encrypt`. -/
def stream (key : Bytes 32) (counter : UInt32) (nonce : Bytes 12) (n : Nat) : List UInt8 :=
  ((List.range ((n + 63) / 64)).flatMap fun j => chacha20Block key (counter + .ofNat j) nonce).take n

/-- HChaCha20: the first and the last four words after the rounds on a key and 16 bytes. -/
def hchacha20 (key : Bytes 32) (inp : Bytes 16) : List UInt8 :=
  let s := rounds (state key (words 4 inp.val))
  serialize (s.take 4 ++ s.drop 12)

end Rfc8439

/-- The vector of RFC 8439, 2.3.2. -/
example : Rfc8439.block [0x61707865, 0x3320646e, 0x79622d32, 0x6b206574, 0x03020100, 0x07060504,
      0x0b0a0908, 0x0f0e0d0c, 0x13121110, 0x17161514, 0x1b1a1918, 0x1f1e1d1c, 1, 0x09000000,
      0x4a000000, 0] =
    [0xe4e7f110, 0x15593bd1, 0x1fdd0f50, 0xc47120a3, 0xc7f4d1c7, 0x0368c033, 0x9aaa2204,
      0x4e6cd4c3, 0x466482d2, 0x09aa9f07, 0x05d7c214, 0xa2028bd9, 0xd19c12b5, 0xb94e16de,
      0xe883d0cb, 0x4e3c50a2] := by decide +kernel

example : Rfc8439.hchacha20 (bytesAt 32 ((List.range 32).map UInt8.ofNat) 0)
      (bytesAt 16 [0, 0, 0, 9, 0, 0, 0, 0x4a, 0, 0, 0, 0, 0x31, 0x41, 0x59, 0x27] 0) =
    [0x82, 0x41, 0x3b, 0x42, 0x27, 0xb2, 0x7b, 0xfe, 0xd3, 0x0e, 0x42, 0x50, 0x8a, 0x87, 0x7d, 0x73,
      0xa0, 0xf9, 0xe4, 0xd5, 0x8a, 0x74, 0xa8, 0x53, 0xc1, 0x2e, 0xc4, 0x13, 0x26, 0xd3, 0xec,
      0xdc] := by decide +kernel

/-! ## The key stream -/

namespace Djb

/-- The words that a counter of 64 bits starts a block with. -/
def input (key : Bytes 32) (nonce : Bytes 8) (ctr : Nat) : Words16 :=
  let c := leBytes 8 ctr
  chacha20Input key (load32Le c 0) (load32Le c 4) (load32Le nonce.val 0) (load32Le nonce.val 4)

def block (key : Bytes 32) (nonce : Bytes 8) (ctr : Nat) : List UInt8 :=
  store32LeBuf (Rfc8439.block (input key nonce ctr).toList)

/-- The first `n` bytes of the blocks from `ctr` on. -/
def stream (key : Bytes 32) (nonce : Bytes 8) (ctr n : Nat) : List UInt8 :=
  ((List.range ((n + 63) / 64)).flatMap fun i => block key nonce (ctr + i)).take n

end Djb

end Netchan.Cipher
