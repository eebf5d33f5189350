import Netchan.Lib.Fields
import Netchan.Lib.Text

/-!
# SHA-1 and base64

The digest and the encoding that `transport/nc_ws.c` bundles for the handshake.

* `sha1Update`, `sha1Final`: the streaming digest.
* `base64`: its length and its alphabet (`length_base64`, `base64_plain`).
* `acceptKey`: the `Sec-WebSocket-Accept` value of a key.
-/

namespace Netchan.Transport

open Lib

/-! ## SHA-1 -/

/-- Five words: the state `h`, and the working variables of a block. -/
structure Words where
  a : UInt32
  b : UInt32
  c : UInt32
  d : UInt32
  e : UInt32

/-- `struct sha1`; `buf` has the `n` bytes that are buffered. -/
structure Sha1 where
  h : Words
  len : UInt64
  buf : List UInt8

def rol32 (v : UInt32) (c : UInt32) : UInt32 := v <<< c ||| v >>> (32 - c)

/-- The message schedule of a block. -/
def schedule (p : List UInt8) : List UInt32 :=
  let w := (List.range 16).map fun i => rd32 p (i * 4)
  (List.range' 16 64).foldl (fun w i => w ++ [rol32
    (w.getD (i - 3) 0 ^^^ w.getD (i - 8) 0 ^^^ w.getD (i - 14) 0 ^^^ w.getD (i - 16) 0) 1]) w

/-- Round `i` with its word of the schedule. -/
def round (s : Words) (i : Nat) (w : UInt32) : Words :=
  let (f, k) : UInt32 × UInt32 :=
    if i < 20 then (s.b &&& s.c ||| ~~~s.b &&& s.d, 0x5a827999)
    else if i < 40 then (s.b ^^^ s.c ^^^ s.d, 0x6ed9eba1)
    else if i < 60 then (s.b &&& s.c ||| s.b &&& s.d ||| s.c &&& s.d, 0x8f1bbcdc)
    else (s.b ^^^ s.c ^^^ s.d, 0xca62c1d6)
  ⟨rol32 s.a 5 + f + s.e + k + w, s.a, rol32 s.b 30, s.c, s.d⟩

def sha1Block (h : Words) (p : List UInt8) : Words :=
  let w := schedule p
  let s := (List.range 80).foldl (fun s i => round s i (w.getD i 0)) h
  ⟨h.a + s.a, h.b + s.b, h.c + s.c, h.d + s.d, h.e + s.e⟩

def sha1Init : Sha1 := ⟨⟨0x67452301, 0xefcdab89, 0x98badcfe, 0x10325476, 0xc3d2e1f0⟩, 0, []⟩

/-- The loop of `sha1_update`. Each round takes a byte at least. -/
def sha1Feed : Nat → Sha1 → List UInt8 → Sha1
  | 0, s, _ => s
  | fuel + 1, s, data =>
    if data = [] then s
    else
      let take := min (64 - s.buf.length) data.length
      let buf := s.buf ++ data.take take
      let s := if buf.length = 64 then { s with h := sha1Block s.h buf, buf := [] }
        else { s with buf }
      sha1Feed fuel s (data.drop take)

def sha1Update (s : Sha1) (data : List UInt8) : Sha1 :=
  sha1Feed data.length { s with len := s.len + UInt64.ofNat data.length } data

/-- `while (s->n != 56)`: there are 64 values for `n`. -/
def sha1Pad : Nat → Sha1 → Sha1
  | 0, s => s
  | fuel + 1, s => if s.buf.length ≠ 56 then sha1Pad fuel (sha1Update s [0]) else s

def sha1Final (s : Sha1) : List UInt8 :=
  let bits := s.len * 8
  let s := sha1Pad 64 (sha1Update s [0x80])
  let s := sha1Update s (beBytes 8 bits.toNat)
  wr32 s.h.a ++ wr32 s.h.b ++ wr32 s.h.c ++ wr32 s.h.d ++ wr32 s.h.e

theorem length_sha1Final (s : Sha1) : (sha1Final s).length = 20 := rfl

/-! ## base64 -/

def b64 : List UInt8 := ascii "ABCDEFGHIJKLMNOPQRSTUVWXYZabcdefghijklmnopqrstuvwxyz0123456789+/"

/-- `B64[v & 63]`. -/
def b64Char (v : Nat) : UInt8 := b64.getD (v % 64) 0

/-- `base64`, without the NUL. -/
def base64 : List UInt8 → List UInt8
  | x :: y :: z :: rest =>
    let v := x.toNat * 2 ^ 16 + y.toNat * 2 ^ 8 + z.toNat
    b64Char (v / 2 ^ 18) :: b64Char (v / 2 ^ 12) :: b64Char (v / 2 ^ 6) :: b64Char v :: base64 rest
  | [x, y] =>
    let v := x.toNat * 2 ^ 16 + y.toNat * 2 ^ 8
    [b64Char (v / 2 ^ 18), b64Char (v / 2 ^ 12), b64Char (v / 2 ^ 6), 61]
  | [x] =>
    let v := x.toNat * 2 ^ 16
    [b64Char (v / 2 ^ 18), b64Char (v / 2 ^ 12), 61, 61]
  | [] => []

/-- A byte that does not end a header value, nor is skipped at the start of one. -/
def Plain (b : UInt8) : Prop := b ≠ 0 ∧ b ≠ 9 ∧ b ≠ 10 ∧ b ≠ 13 ∧ b ≠ 32

instance (b : UInt8) : Decidable (Plain b) := inferInstanceAs (Decidable (_ ∧ _))

theorem length_base64 : ∀ l : List UInt8, (base64 l).length = 4 * ((l.length + 2) / 3)
  | x :: y :: z :: rest => by
    simp only [base64, List.length_cons, length_base64 rest]
    omega
  | [x, y] => by simp [base64]
  | [x] => by simp [base64]
  | [] => rfl

theorem b64Char_plain (v : Nat) : Plain (b64Char v) := by
  have hall : ∀ i : Fin 64, Plain (b64.getD i 0) := by decide +kernel
  exact hall ⟨v % 64, Nat.mod_lt _ (by decide)⟩

theorem base64_plain : ∀ l : List UInt8, ∀ b ∈ base64 l, Plain b
  | x :: y :: z :: rest => by
    simp only [base64, List.forall_mem_cons]
    exact ⟨b64Char_plain _, b64Char_plain _, b64Char_plain _, b64Char_plain _, base64_plain rest⟩
  | [x, y] => by
    simp only [base64, List.forall_mem_cons]
    exact ⟨b64Char_plain _, b64Char_plain _, b64Char_plain _, by decide, by simp⟩
  | [x] => by
    simp only [base64, List.forall_mem_cons]
    exact ⟨b64Char_plain _, b64Char_plain _, by decide, by decide, by simp⟩
  | [] => by simp [base64]

/-! ## The accept value -/

def wsGuid : List UInt8 := ascii "258EAFA5-E914-47DA-95CA-C5AB0DC85B11"

def acceptKey (clientKey : List UInt8) : List UInt8 :=
  base64 (sha1Final (sha1Update (sha1Update sha1Init clientKey) wsGuid))

theorem length_acceptKey (key : List UInt8) : (acceptKey key).length = 28 := by
  rw [acceptKey, length_base64, length_sha1Final]

theorem acceptKey_plain (key : List UInt8) : ∀ b ∈ acceptKey key, Plain b := base64_plain _

example : acceptKey (ascii "dGhlIHNhbXBsZSBub25jZQ==") = ascii "s3pPLMBiTxaQ9kYGzzhZRbK+xOo=" := by
  decide +kernel

end Netchan.Transport
