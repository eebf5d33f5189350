import Netchan.Cipher.Poly1305

/-!
# BLAKE2b

`third_party/monocypher.c`: the input of a block is held as words, and a full block is compressed
when more input comes, so that the last one is always at hand for `crypto_blake2b_final`.

`Rfc7693.digest` is the digest of a whole string, as RFC 7693 has it.
-/

namespace Netchan.Cipher

open Lib

/-- `rotr64`. -/
def rotr64 (x n : UInt64) : UInt64 := (x >>> n) ^^^ (x <<< (64 - n))

/-- Eight words: the state `hash`, and half of the work vector. -/
structure Hash where
  h0 : UInt64
  h1 : UInt64
  h2 : UInt64
  h3 : UInt64
  h4 : UInt64
  h5 : UInt64
  h6 : UInt64
  h7 : UInt64
  deriving DecidableEq

def iv : Hash :=
  ⟨0x6a09e667f3bcc908, 0xbb67ae8584caa73b, 0x3c6ef372fe94f82b, 0xa54ff53a5f1d36f1,
    0x510e527fade682d1, 0x9b05688c2b3e6c1f, 0x1f83d9abfb41bd6b, 0x5be0cd19137e2179⟩

/-- `sigma`: the order of the words in each round. -/
def sigma : List (List Nat) :=
  [[0, 1, 2, 3, 4, 5, 6, 7, 8, 9, 10, 11, 12, 13, 14, 15],
    [14, 10, 4, 8, 9, 15, 13, 6, 1, 12, 0, 2, 11, 7, 5, 3],
    [11, 8, 12, 0, 5, 2, 15, 13, 10, 14, 3, 6, 7, 1, 9, 4],
    [7, 9, 3, 1, 13, 12, 11, 14, 2, 6, 5, 10, 4, 0, 15, 8],
    [9, 0, 5, 7, 2, 4, 10, 15, 14, 1, 11, 12, 6, 8, 3, 13],
    [2, 12, 6, 10, 0, 11, 8, 3, 4, 13, 7, 5, 15, 14, 1, 9],
    [12, 5, 1, 15, 14, 13, 4, 10, 0, 7, 6, 3, 9, 2, 8, 11],
    [13, 11, 7, 14, 12, 1, 3, 9, 5, 0, 15, 4, 8, 6, 2, 10],
    [6, 15, 14, 9, 11, 3, 0, 8, 12, 2, 13, 7, 1, 4, 10, 5],
    [10, 2, 8, 4, 7, 6, 1, 5, 15, 11, 9, 14, 3, 12, 13, 0],
    [0, 1, 2, 3, 4, 5, 6, 7, 8, 9, 10, 11, 12, 13, 14, 15],
    [14, 10, 4, 8, 9, 15, 13, 6, 1, 12, 0, 2, 11, 7, 5, 3]]

/-- `BLAKE2_G`. -/
def blake2G (a b c d x y : UInt64) : UInt64 × UInt64 × UInt64 × UInt64 :=
  let a := a + (b + x)
  let d := rotr64 (d ^^^ a) 32
  let c := c + d
  let b := rotr64 (b ^^^ c) 24
  let a := a + (b + y)
  let d := rotr64 (d ^^^ a) 16
  let c := c + d
  let b := rotr64 (b ^^^ c) 63
  (a, b, c, d)

/-- `BLAKE2_ROUND`, with a row of `sigma`. -/
def blake2Round (input : List UInt64) (v : Hash × Hash) (s : List Nat) : Hash × Hash :=
  let m := fun i => input.getD (s.getD i 0) 0
  let (l, r) := v
  let (v0, v4, v8, v12) := blake2G l.h0 l.h4 r.h0 r.h4 (m 0) (m 1)
  let (v1, v5, v9, v13) := blake2G l.h1 l.h5 r.h1 r.h5 (m 2) (m 3)
  let (v2, v6, v10, v14) := blake2G l.h2 l.h6 r.h2 r.h6 (m 4) (m 5)
  let (v3, v7, v11, v15) := blake2G l.h3 l.h7 r.h3 r.h7 (m 6) (m 7)
  let (v0, v5, v10, v15) := blake2G v0 v5 v10 v15 (m 8) (m 9)
  let (v1, v6, v11, v12) := blake2G v1 v6 v11 v12 (m 10) (m 11)
  let (v2, v7, v8, v13) := blake2G v2 v7 v8 v13 (m 12) (m 13)
  let (v3, v4, v9, v14) := blake2G v3 v4 v9 v14 (m 14) (m 15)
  (⟨v0, v1, v2, v3, v4, v5, v6, v7⟩, ⟨v8, v9, v10, v11, v12, v13, v14, v15⟩)

/-- `crypto_blake2b_ctx`. `input` has 16 words, and `inputIdx` counts bytes. -/
structure Blake2b where
  hash : Hash
  inputOffset : UInt64 × UInt64
  input : List UInt64
  inputIdx : Nat
  hashSize : Nat

/-- The work vector is mangled and put over the hash. -/
def mangle (h : Hash) (x : UInt64 × UInt64) (input : List UInt64) (isLastBlock : Bool) : Hash :=
  let last : UInt64 := if isLastBlock then ~~~0 else 0
  let w : Hash := { iv with h4 := iv.h4 ^^^ x.1, h5 := iv.h5 ^^^ x.2, h6 := iv.h6 ^^^ last }
  let (l, r) := sigma.foldl (blake2Round input) (h, w)
  ⟨h.h0 ^^^ (l.h0 ^^^ r.h0), h.h1 ^^^ (l.h1 ^^^ r.h1), h.h2 ^^^ (l.h2 ^^^ r.h2),
    h.h3 ^^^ (l.h3 ^^^ r.h3), h.h4 ^^^ (l.h4 ^^^ r.h4), h.h5 ^^^ (l.h5 ^^^ r.h5),
    h.h6 ^^^ (l.h6 ^^^ r.h6), h.h7 ^^^ (l.h7 ^^^ r.h7)⟩

/-- The count of the input, in two words. -/
def countInput (x : UInt64 × UInt64) (y : Nat) : UInt64 × UInt64 :=
  let x0 := x.1 + .ofNat y
  (x0, if x0 < .ofNat y then x.2 + 1 else x.2)

/-- `blake2b_compress`. -/
def blake2bCompress (ctx : Blake2b) (isLastBlock : Bool) : Blake2b :=
  let x := countInput ctx.inputOffset ctx.inputIdx
  { ctx with inputOffset := x, hash := mangle ctx.hash x ctx.input isLastBlock }

/-- The input without bytes. -/
def noInput : List UInt64 := List.replicate 16 0

/-- `load64_le_buf`, to the words from `start` on. -/
def load64LeBuf (input : List UInt64) (start : Nat) (src : List UInt8) (n : Nat) : List UInt64 :=
  (List.range n).foldl (fun input i => input.set (start + i) (load64Le src (8 * i))) input

/-- `crypto_blake2b_init`: `crypto_blake2b_keyed_init` with a key of 0 bytes. -/
def cryptoBlake2bInit (hashSize : Nat) : Blake2b :=
  { hash := { iv with
      h0 := iv.h0 ^^^ ((0x01010000 : UInt64) ^^^ ((0 : UInt64) <<< 8) ^^^ .ofNat hashSize) }
    inputOffset := (0, 0), input := noInput, inputIdx := 0, hashSize }

/-- `ctx->input[word] |= (u64)b << (byte << 3)`. -/
def orByte (input : List UInt64) (word byte : Nat) (b : UInt8) : List UInt64 :=
  input.set word (input.getD word 0 ||| b.toUInt64 <<< (.ofNat (byte <<< 3)))

/-- The bytes up to the next word. -/
def alignWord (ctx : Blake2b) (message : List UInt8) : Blake2b × List UInt8 :=
  if ctx.inputIdx &&& 7 ≠ 0 then
    let nbBytes := min (gap (.ofNat ctx.inputIdx) 8).toNat message.length
    let word := ctx.inputIdx >>> 3
    let start := ctx.inputIdx &&& 7
    let input := (List.range nbBytes).foldl
      (fun input i => orByte input word (start + i) (byte message i)) ctx.input
    ({ ctx with input, inputIdx := ctx.inputIdx + nbBytes }, message.drop nbBytes)
  else (ctx, message)

/-- The words up to the end of the block. -/
def alignBlock (ctx : Blake2b) (message : List UInt8) : Blake2b × List UInt8 :=
  if ctx.inputIdx &&& 127 ≠ 0 then
    let nbWords := (min (gap (.ofNat ctx.inputIdx) 128).toNat message.length) >>> 3
    ({ ctx with
        input := load64LeBuf ctx.input (ctx.inputIdx >>> 3) message nbWords
        inputIdx := ctx.inputIdx + nbWords <<< 3 }, message.drop (nbWords <<< 3))
  else (ctx, message)

/-- A block of the message is loaded. -/
def loadBlock (ctx : Blake2b) (message : List UInt8) : Blake2b :=
  { ctx with input := load64LeBuf ctx.input 0 message 16, inputIdx := 128 }

/-- The loop over the whole blocks. -/
def loadBlocks : Nat → Blake2b → List UInt8 → Blake2b × List UInt8
  | 0, ctx, message => (ctx, message)
  | n + 1, ctx, message =>
    let ctx := if ctx.inputIdx = 128 then blake2bCompress ctx false else ctx
    loadBlocks n (loadBlock ctx message) (message.drop 128)

/-- An input that is empty is all zeros. -/
def zeroInput (ctx : Blake2b) : Blake2b :=
  if ctx.inputIdx = 0 then { ctx with input := noInput } else ctx

/-- The remaining words. -/
def loadWords (ctx : Blake2b) (message : List UInt8) (nbWords : Nat) : Blake2b :=
  { ctx with
    input := load64LeBuf ctx.input 0 message nbWords, inputIdx := ctx.inputIdx + nbWords <<< 3 }

/-- A remaining byte. -/
def loadByte (ctx : Blake2b) (b : UInt8) : Blake2b :=
  { ctx with
    input := orByte ctx.input (ctx.inputIdx >>> 3) (ctx.inputIdx &&& 7) b
    inputIdx := ctx.inputIdx + 1 }

/-- The bytes that fill no block. -/
def loadRest (ctx : Blake2b) (message : List UInt8) : Blake2b :=
  if message.length ≠ 0 then
    let ctx := if ctx.inputIdx = 128 then { blake2bCompress ctx false with inputIdx := 0 } else ctx
    let nbWords := message.length >>> 3
    (message.drop (nbWords <<< 3)).foldl loadByte (loadWords (zeroInput ctx) message nbWords)
  else ctx

/-- `crypto_blake2b_update`. -/
def cryptoBlake2bUpdate (ctx : Blake2b) (message : List UInt8) : Blake2b :=
  if message.length = 0 then ctx
  else
    let (ctx, message) := alignWord ctx message
    let (ctx, message) := alignBlock ctx message
    let (ctx, message) := loadBlocks (message.length >>> 7) ctx message
    loadRest ctx message

def Hash.toList (h : Hash) : List UInt64 := [h.h0, h.h1, h.h2, h.h3, h.h4, h.h5, h.h6, h.h7]

/-- `crypto_blake2b_final`. -/
def cryptoBlake2bFinal (ctx : Blake2b) : List UInt8 :=
  let h := (blake2bCompress ctx true).hash.toList
  let hashSize := min ctx.hashSize 64
  let nbWords := hashSize >>> 3
  (h.take nbWords).flatMap store64Le ++
    (List.range' (nbWords <<< 3) (hashSize - nbWords <<< 3)).map fun i =>
      (h.getD (i >>> 3) 0 >>> (.ofNat (8 * (i &&& 7)))).toUInt8

/-! ## RFC 7693 -/

namespace Rfc7693

/-- The sixteen words of a block, which zeros fill. -/
def words (b : List UInt8) : List UInt64 := (List.range 16).map fun i => load64Le b (8 * i)

/-- The mixing function `G`. -/
def G (v : List UInt64) (a b c d : Nat) (x y : UInt64) : List UInt64 :=
  let v := v.set a (v.getD a 0 + v.getD b 0 + x)
  let v := v.set d (rotr64 (v.getD d 0 ^^^ v.getD a 0) 32)
  let v := v.set c (v.getD c 0 + v.getD d 0)
  let v := v.set b (rotr64 (v.getD b 0 ^^^ v.getD c 0) 24)
  let v := v.set a (v.getD a 0 + v.getD b 0 + y)
  let v := v.set d (rotr64 (v.getD d 0 ^^^ v.getD a 0) 16)
  let v := v.set c (v.getD c 0 + v.getD d 0)
  v.set b (rotr64 (v.getD b 0 ^^^ v.getD c 0) 63)

/-- A round: the columns and the diagonals. -/
def round (m v : List UInt64) (s : List Nat) : List UInt64 :=
  let w := fun i => m.getD (s.getD i 0) 0
  let v := G v 0 4 8 12 (w 0) (w 1)
  let v := G v 1 5 9 13 (w 2) (w 3)
  let v := G v 2 6 10 14 (w 4) (w 5)
  let v := G v 3 7 11 15 (w 6) (w 7)
  let v := G v 0 5 10 15 (w 8) (w 9)
  let v := G v 1 6 11 12 (w 10) (w 11)
  let v := G v 2 7 8 13 (w 12) (w 13)
  G v 3 4 9 14 (w 14) (w 15)

/-- The work vector of a block, after `t` bytes. -/
def init (h : Hash) (t : Nat) (f : Bool) : List UInt64 :=
  let v := h.toList ++ iv.toList
  let v := v.set 12 (v.getD 12 0 ^^^ .ofNat t)
  let v := v.set 13 (v.getD 13 0 ^^^ .ofNat (t / 2 ^ 64))
  if f then v.set 14 (v.getD 14 0 ^^^ 0xffffffffffffffff) else v

/-- The compression function `F`. -/
def F (h : Hash) (b : List UInt8) (t : Nat) (f : Bool) : Hash :=
  let m := words b
  let v := (List.range 12).foldl (fun v i => round m v (sigma.getD (i % 10) [])) (init h t f)
  let w := fun i => v.getD i 0 ^^^ v.getD (i + 8) 0
  ⟨h.h0 ^^^ w 0, h.h1 ^^^ w 1, h.h2 ^^^ w 2, h.h3 ^^^ w 3, h.h4 ^^^ w 4, h.h5 ^^^ w 5,
    h.h6 ^^^ w 6, h.h7 ^^^ w 7⟩

/-- `dd`, the number of blocks. -/
def dd (m : List UInt8) : Nat := max 1 ((m.length + 127) / 128)

/-- A block that is not the last one, with the count of the bytes up to its end. -/
def step (s : Hash × Nat) (b : List UInt8) : Hash × Nat :=
  (F s.1 b (s.2 + 128) false, s.2 + 128)

/-- The digest of `nn` bytes, without a key. -/
def digest (nn : Nat) (m : List UInt8) : List UInt8 :=
  let h := { iv with h0 := iv.h0 ^^^ ((0x01010000 : UInt64) ^^^ .ofNat nn) }
  let start := 128 * (dd m - 1)
  let (h, _) := (blocks 128 (m.take start)).foldl step (h, 0)
  let h := F h (m.drop start) m.length true
  (h.toList.flatMap store64Le).take nn

end Rfc7693

/-- The vector of RFC 7693, appendix A. -/
example : cryptoBlake2bFinal (cryptoBlake2bUpdate (cryptoBlake2bInit 64) (ascii "abc")) =
    (Bytes.ofNat 32 0xba80a53f981c4d0d6a2797b69f12f6e94c212f14685ac4b74b12bb6fdbffa2d1).val ++
    (Bytes.ofNat 32 0x7d87c5392aab792dc252d5de4533cc9518d38aa8dbf1925ab92386edd4009923).val := by
  decide +kernel

end Netchan.Cipher
