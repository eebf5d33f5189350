import Netchan.Cipher.ChaCha20
import Netchan.Cipher.Poly1305
import Netchan.Lib.Xor

/-!
# Authenticated encryption

`third_party/monocypher.c`: XChaCha20 and Poly1305. The first block of the stream is the key of the
code and the next key, and the text starts with the second block.

`Rfc8439.aead` is what a text is sealed to, as RFC 8439 has it, and `Rfc8439.xaead` the same with the
longer nonce of XChaCha20.
-/

namespace Netchan.Cipher

open Lib

/-! ## Comparing in constant time -/

/-- `neq0`: -1 if the number is not 0. -/
def neq0 (diff : UInt64) : Int32 :=
  let half := (diff >>> 32) ||| diff.toUInt32.toUInt64
  (((1 : UInt64) &&& ((half - 1) >>> 32)) - 1).toUInt32.toInt32

def x16 (a b : List UInt8) : UInt64 :=
  (load64Le a 0 ^^^ load64Le b 0) ||| (load64Le a 8 ^^^ load64Le b 8)

def x32 (a b : List UInt8) : UInt64 := x16 a b ||| x16 (a.drop 16) (b.drop 16)

def cryptoVerify16 (a b : Bytes 16) : Int32 := neq0 (x16 a.val b.val)

def cryptoVerify32 (a b : Bytes 32) : Int32 := neq0 (x32 a.val b.val)

/-! ## The construction -/

/-- `crypto_aead_ctx`. -/
structure AeadCtx where
  counter : UInt64
  key : Bytes 32
  nonce : Bytes 8
  deriving DecidableEq

/-- `lock_auth`. -/
def lockAuth (authKey : Bytes 32) (ad cipher : List UInt8) : Bytes 16 :=
  let adSize : UInt64 := .ofNat ad.length
  let textSize : UInt64 := .ofNat cipher.length
  let sizes := store64Le adSize ++ store64Le textSize
  let ctx := cryptoPoly1305Init authKey
  let ctx := cryptoPoly1305Update ctx ad
  let ctx := cryptoPoly1305Update ctx (List.replicate (gap adSize 16).toNat 0)
  let ctx := cryptoPoly1305Update ctx cipher
  let ctx := cryptoPoly1305Update ctx (List.replicate (gap textSize 16).toNat 0)
  let ctx := cryptoPoly1305Update ctx sizes
  bytesAt 16 (cryptoPoly1305Final ctx) 0

/-- `crypto_aead_init_x`. -/
def cryptoAeadInitX (key : Bytes 32) (nonce : Bytes 24) : AeadCtx :=
  { key := bytesAt 32 (cryptoChacha20H key (bytesAt 16 nonce.val 0)) 0
    nonce := bytesAt 8 nonce.val 16, counter := 0 }

/-- `crypto_aead_write`: the mac and the cipher text. -/
def cryptoAeadWrite (ctx : AeadCtx) (ad plain : List UInt8) :
    AeadCtx × Bytes 16 × List UInt8 :=
  let (authKey, _) := cryptoChacha20Djb none 64 ctx.key ctx.nonce ctx.counter
  let (cipher, _) := cryptoChacha20Djb (some plain) plain.length ctx.key ctx.nonce (ctx.counter + 1)
  let mac := lockAuth (bytesAt 32 authKey 0) ad cipher
  ({ ctx with key := bytesAt 32 authKey 32 }, mac, cipher)

/-- `crypto_aead_read`: the plain text, unless the mac is another one. -/
def cryptoAeadRead (ctx : AeadCtx) (mac : Bytes 16) (ad cipher : List UInt8) :
    AeadCtx × Int32 × Option (List UInt8) :=
  let (authKey, _) := cryptoChacha20Djb none 64 ctx.key ctx.nonce ctx.counter
  let realMac := lockAuth (bytesAt 32 authKey 0) ad cipher
  let mismatch := cryptoVerify16 mac realMac
  if mismatch = 0 then
    let (plain, _) :=
      cryptoChacha20Djb (some cipher) cipher.length ctx.key ctx.nonce (ctx.counter + 1)
    ({ ctx with key := bytesAt 32 authKey 32 }, mismatch, some plain)
  else (ctx, mismatch, none)

/-- `crypto_aead_lock`. -/
def cryptoAeadLock (key : Bytes 32) (nonce : Bytes 24) (ad plain : List UInt8) :
    Bytes 16 × List UInt8 :=
  (cryptoAeadWrite (cryptoAeadInitX key nonce) ad plain).2

/-- `crypto_aead_unlock`: 0 and the plain text, or -1. -/
def cryptoAeadUnlock (key : Bytes 32) (nonce : Bytes 24) (mac : Bytes 16)
    (ad cipher : List UInt8) : Int32 × Option (List UInt8) :=
  (cryptoAeadRead (cryptoAeadInitX key nonce) mac ad cipher).2

/-! ## RFC 8439 -/

namespace Rfc8439

/-- `pad16`: the zeros that fill the last block. -/
def pad16 (x : List UInt8) : List UInt8 := List.replicate ((16 - x.length % 16) % 16) 0

/-- What the code is of. -/
def macData (ad cipher : List UInt8) : List UInt8 :=
  ad ++ pad16 ad ++ cipher ++ pad16 cipher ++ leBytes 8 ad.length ++ leBytes 8 cipher.length

/-- The code and the cipher text. The first block of the stream has the key of the code. -/
def aead (key : Bytes 32) (nonce : Bytes 12) (ad plain : List UInt8) : List UInt8 × List UInt8 :=
  let cipher := xorBytes (stream key 1 nonce plain.length) plain
  (mac (bytesAt 32 (chacha20Block key 0 nonce) 0) (macData ad cipher), cipher)

/-- With XChaCha20: 16 bytes of the nonce are for the key, and the other 8 follow 4 zeros. -/
def xaead (key : Bytes 32) (nonce : Bytes 24) (ad plain : List UInt8) : List UInt8 × List UInt8 :=
  aead (bytesAt 32 (hchacha20 key (bytesAt 16 nonce.val 0)) 0)
    (bytesAt 12 (List.replicate 4 0 ++ nonce.val.drop 16) 0) ad plain

/-- The longest text: the last block has the last number of 32 bits. -/
def maxText : Nat := 64 * (2 ^ 32 - 1)

end Rfc8439

end Netchan.Cipher
