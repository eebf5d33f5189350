import Netchan.Lib.Blocks
import Netchan.Transport.Sha1
import Mathlib.Data.Nat.Find

/-!
# The streaming SHA-1

`Rfc3174.digest` is SHA-1 of a whole string, written after the text of RFC 3174: the padded string,
cut into blocks, and the words of the schedule as a recurrence. `streaming_digest`: whatever pieces
a string is fed in, `sha1_update` and `sha1_final` give its digest, and the padding loop ends.

`Sha1.Holds s m` is the invariant: the full blocks of `m` are in `h`, the rest of it is in `buf` and
its length is in `len`.
-/

namespace Netchan.Transport

open Lib

/-! ## RFC 3174 -/

namespace Rfc3174

/-- The circular left shift `S^n(X)`. -/
def S (n : Nat) (x : UInt32) : UInt32 := ⟨x.toBitVec.rotateLeft n⟩

/-- The words `W(0)`, …, `W(79)` of a block. -/
def W (p : List UInt8) (t : Nat) : UInt32 :=
  if t < 16 then rd32 p (t * 4)
  else S 1 (W p (t - 3) ^^^ W p (t - 8) ^^^ W p (t - 14) ^^^ W p (t - 16))

/-- The logical function `f(t;B,C,D)`. -/
def f (t : Nat) (b c d : UInt32) : UInt32 :=
  if t < 20 then b &&& c ||| ~~~b &&& d
  else if t < 40 then b ^^^ c ^^^ d
  else if t < 60 then b &&& c ||| b &&& d ||| c &&& d
  else b ^^^ c ^^^ d

/-- The constant word `K(t)`. -/
def K (t : Nat) : UInt32 :=
  if t < 20 then 0x5a827999 else if t < 40 then 0x6ed9eba1 else if t < 60 then 0x8f1bbcdc
  else 0xca62c1d6

/-- `A`, …, `E` after `t` rounds on a block. -/
def vars (h : Words) (p : List UInt8) : Nat → Words
  | 0 => h
  | t + 1 =>
    let s := vars h p t
    ⟨S 5 s.a + f t s.b s.c s.d + s.e + W p t + K t, s.a, S 30 s.b, s.c, s.d⟩

/-- What a block makes of `H0`, …, `H4`. -/
def block (h : Words) (p : List UInt8) : Words :=
  let s := vars h p 80
  ⟨h.a + s.a, h.b + s.b, h.c + s.c, h.d + s.d, h.e + s.e⟩

def initial : Words := ⟨0x67452301, 0xefcdab89, 0x98badcfe, 0x10325476, 0xc3d2e1f0⟩

theorem exists_zeros (len : Nat) : ∃ k, 64 ∣ len + 1 + k + 8 := ⟨(119 - len % 64) % 64, by omega⟩

/-- The least number of zero bytes. -/
def zeros (len : Nat) : Nat := Nat.find (exists_zeros len)

/-- The string with `0x80`, the zeros and its length in bits, a number of 64 bits. -/
def padded (m : List UInt8) : List UInt8 :=
  m ++ 0x80 :: (List.replicate (zeros m.length) 0 ++ beBytes 8 (8 * m.length))

def digest (m : List UInt8) : List UInt8 :=
  let h := (blocks 64 (padded m)).foldl block initial
  wr32 h.a ++ wr32 h.b ++ wr32 h.c ++ wr32 h.d ++ wr32 h.e

theorem zeros_lt (len : Nat) : zeros len < 64 :=
  (Nat.find_le (n := (119 - len % 64) % 64) (h := exists_zeros len) (by omega)).trans_lt
    (Nat.mod_lt _ (by decide))

end Rfc3174

/-! ## The block function -/

/-- The loop over the later words has `W(0)`, …, `W(k - 1)` in the array. -/
theorem schedule_loop (p : List UInt8) (k : Nat) :
    (List.range' 16 k).foldl (fun w i => w ++ [rol32
      (w.getD (i - 3) 0 ^^^ w.getD (i - 8) 0 ^^^ w.getD (i - 14) 0 ^^^ w.getD (i - 16) 0) 1])
      ((List.range 16).map fun i => rd32 p (i * 4)) = (List.range (16 + k)).map (Rfc3174.W p) := by
  induction k with
  | zero =>
    refine List.map_congr_left fun t ht => ?_
    rw [Rfc3174.W, if_pos (List.mem_range.1 ht)]
  | succ k ih =>
    have hget : ∀ j < 16 + k,
        ((List.range (16 + k)).map (Rfc3174.W p)).getD j 0 = Rfc3174.W p j := by
      intro j hj
      rw [List.getD_eq_getElem?_getD, List.getElem?_map, List.getElem?_range hj]
      rfl
    have hW : Rfc3174.W p (16 + k) = Rfc3174.S 1 (Rfc3174.W p (16 + k - 3) ^^^
        Rfc3174.W p (16 + k - 8) ^^^ Rfc3174.W p (16 + k - 14) ^^^ Rfc3174.W p (16 + k - 16)) := by
      rw [Rfc3174.W, if_neg (by omega)]
    rw [List.range'_concat, List.foldl_append, ih, List.foldl_cons, List.foldl_nil, Nat.one_mul,
      hget _ (by omega), hget _ (by omega), hget _ (by omega), hget _ (by omega),
      ← Nat.add_assoc, List.range_succ, List.map_append, List.map_singleton, hW]
    rfl

theorem schedule_eq (p : List UInt8) : schedule p = (List.range 80).map (Rfc3174.W p) :=
  schedule_loop p 64

theorem round_eq (s : Words) (t : Nat) (w : UInt32) : round s t w =
    ⟨Rfc3174.S 5 s.a + Rfc3174.f t s.b s.c s.d + s.e + w + Rfc3174.K t, s.a, Rfc3174.S 30 s.b, s.c,
      s.d⟩ := by
  unfold round Rfc3174.f Rfc3174.K
  have hcomm : ∀ x k : UInt32, x + k + w = x + w + k := fun x k => by
    rw [UInt32.add_assoc, UInt32.add_comm k, UInt32.add_assoc]
  by_cases h1 : t < 20
  · simp only [if_pos h1, hcomm]
    rfl
  by_cases h2 : t < 40
  · simp only [if_neg h1, if_pos h2, hcomm]
    rfl
  by_cases h3 : t < 60
  · simp only [if_neg h1, if_neg h2, if_pos h3, hcomm]
    rfl
  · simp only [if_neg h1, if_neg h2, if_neg h3, hcomm]
    rfl

/-- The loop over the rounds has `A`, …, `E` after `n` of them. -/
theorem rounds_eq (h : Words) (p : List UInt8) (n : Nat) (hn : n ≤ 80) :
    (List.range n).foldl (fun s i => round s i ((schedule p).getD i 0)) h = Rfc3174.vars h p n := by
  induction n with
  | zero => rfl
  | succ n ih =>
    have hw : (schedule p).getD n 0 = Rfc3174.W p n := by
      rw [schedule_eq, List.getD_eq_getElem?_getD, List.getElem?_map,
        List.getElem?_range (by omega)]
      rfl
    rw [List.range_succ, List.foldl_append, ih (by omega), List.foldl_cons, List.foldl_nil, hw,
      round_eq]
    rfl

/-- **`sha1_block` is the block function of the RFC.** -/
theorem sha1Block_eq (h : Words) (p : List UInt8) : sha1Block h p = Rfc3174.block h p := by
  unfold sha1Block
  dsimp only
  rw [rounds_eq h p 80 (Nat.le_refl _)]
  rfl

/-! ## Updates -/

/-- The string `m` has been taken. -/
structure Sha1.Holds (s : Sha1) (m : List UInt8) : Prop where
  absorbed : Absorbed Rfc3174.block 64 Rfc3174.initial m s.h s.buf
  len : s.len = UInt64.ofNat m.length

theorem sha1Init_holds : sha1Init.Holds [] := ⟨.nil (by decide), rfl⟩

theorem Sha1.Holds.length_buf {s : Sha1} {m : List UInt8} (h : s.Holds m) :
    s.buf.length = m.length % 64 := h.absorbed.length_rest

theorem sha1Feed_absorbs : ∀ (fuel : Nat) (s : Sha1) (m data : List UInt8), data.length ≤ fuel →
    Absorbed Rfc3174.block 64 Rfc3174.initial m s.h s.buf →
    Absorbed Rfc3174.block 64 Rfc3174.initial (m ++ data) (sha1Feed fuel s data).h
      (sha1Feed fuel s data).buf ∧ (sha1Feed fuel s data).len = s.len
  | 0, s, m, data, hfuel, h => by
    rw [List.length_eq_zero_iff.1 (Nat.le_zero.1 hfuel), List.append_nil]
    exact ⟨h, rfl⟩
  | fuel + 1, s, m, data, hfuel, h => by
    unfold sha1Feed
    by_cases hnil : data = []
    · rw [if_pos hnil, hnil, List.append_nil]
      exact ⟨h, rfl⟩
    rw [if_neg hnil]
    have hpos : 0 < data.length := List.length_pos_iff.2 hnil
    have hbuf : s.buf.length < 64 := by
      rw [h.length_rest]
      exact Nat.mod_lt _ (by decide)
    dsimp only
    generalize htake : min (64 - s.buf.length) data.length = take
    have hlen : (s.buf ++ data.take take).length = s.buf.length + take := by
      rw [List.length_append, List.length_take, ← htake]
      omega
    have hdata : m ++ data = m ++ data.take take ++ data.drop take := by
      rw [List.append_assoc, List.take_append_drop]
    have hdrop : (data.drop take).length ≤ fuel := by
      rw [List.length_drop]
      omega
    rw [hdata]
    by_cases hfull : (s.buf ++ data.take take).length = 64
    · rw [if_pos hfull, sha1Block_eq]
      exact sha1Feed_absorbs fuel _ _ _ hdrop (h.full (by decide) hfull)
    · rw [if_neg hfull]
      exact sha1Feed_absorbs fuel { s with buf := s.buf ++ data.take take } _ _ hdrop
        (h.short (by omega))

/-- **An update appends its data.** -/
theorem Sha1.Holds.update {s : Sha1} {m : List UInt8} (h : s.Holds m) (data : List UInt8) :
    (sha1Update s data).Holds (m ++ data) := by
  obtain ⟨h1, h2⟩ := sha1Feed_absorbs data.length { s with len := s.len + UInt64.ofNat data.length }
    m data (Nat.le_refl _) h.absorbed
  refine ⟨h1, h2.trans ?_⟩
  rw [h.len, List.length_append, UInt64.ofNat_add]

theorem Sha1.Holds.updates {s : Sha1} {m : List UInt8} (h : s.Holds m)
    (pieces : List (List UInt8)) :
    (pieces.foldl sha1Update s).Holds (m ++ pieces.flatten) := by
  induction pieces generalizing s m with
  | nil => simpa using h
  | cons data pieces ih =>
    rw [List.foldl_cons, List.flatten_cons, ← List.append_assoc]
    exact ih (h.update data)

/-! ## Padding -/

/-- The loop `while (s->n != 56)` takes `k` rounds and stops. -/
inductive PadRounds : Sha1 → Nat → Sha1 → Prop
  | stop {s : Sha1} (h : s.buf.length = 56) : PadRounds s 0 s
  | round {s s' : Sha1} {k : Nat} (h : s.buf.length ≠ 56) (hr : PadRounds (sha1Update s [0]) k s') :
      PadRounds s (k + 1) s'

/-- **The padding loop** stops at the first number of zeros that leaves room for the length. -/
theorem sha1Pad_rounds : ∀ (k fuel : Nat) (s : Sha1) (m : List UInt8), k < fuel → s.Holds m →
    (m.length + k) % 64 = 56 → (∀ j < k, (m.length + j) % 64 ≠ 56) →
    PadRounds s k (sha1Pad fuel s) ∧ (sha1Pad fuel s).Holds (m ++ List.replicate k 0)
  | 0, fuel + 1, s, m, _, h, hk, _ => by
    have hstop : s.buf.length = 56 := by
      rw [h.length_buf]
      exact hk
    rw [sha1Pad, if_neg (not_not.2 hstop), List.replicate_zero, List.append_nil]
    exact ⟨.stop hstop, h⟩
  | k + 1, fuel + 1, s, m, hfuel, h, hk, hleast => by
    have hgo : s.buf.length ≠ 56 := by
      rw [h.length_buf]
      exact hleast 0 (Nat.succ_pos k)
    have hlen : (m ++ [0]).length = m.length + 1 := by
      rw [List.length_append, List.length_singleton]
    rw [sha1Pad, if_pos hgo]
    obtain ⟨hr, hh⟩ := sha1Pad_rounds k fuel (sha1Update s [0]) (m ++ [0]) (by omega) (h.update [0])
      (by rw [hlen, ← hk]; congr 1; omega) fun j hj => by
        rw [hlen, Nat.add_assoc, Nat.add_comm 1]
        exact hleast (j + 1) (by omega)
    refine ⟨.round hgo hr, ?_⟩
    rw [List.replicate_succ, List.append_cons]
    exact hh

theorem beBytes_len (n : Nat) : beBytes 8 ((UInt64.ofNat n * 8).toNat) = beBytes 8 (8 * n) := by
  have hmod : (UInt64.ofNat n * 8).toNat = 8 * n % 256 ^ 8 := by
    rw [UInt64.toNat_mul, UInt64.toNat_ofNat']
    show n % 2 ^ 64 * 8 % 2 ^ 64 = 8 * n % 2 ^ 64
    omega
  have hval := beBytes_beVal (beBytes 8 (8 * n))
  rw [length_beBytes, beVal_beBytes] at hval
  rw [hmod, hval]

/-- The bit length is sampled before the padding counts as data. -/
theorem Sha1.Holds.final {s : Sha1} {m : List UInt8} (h : s.Holds m) :
    sha1Final s = Rfc3174.digest m ∧
      PadRounds (sha1Update s [0x80]) (Rfc3174.zeros m.length)
        (sha1Pad 64 (sha1Update s [0x80])) := by
  have hk : 64 ∣ m.length + 1 + Rfc3174.zeros m.length + 8 :=
    Nat.find_spec (Rfc3174.exists_zeros m.length)
  have hleast : ∀ j < Rfc3174.zeros m.length, ¬64 ∣ m.length + 1 + j + 8 := fun j hj =>
    Nat.find_min (Rfc3174.exists_zeros m.length) hj
  have hlen : (m ++ [0x80]).length = m.length + 1 := by
    rw [List.length_append, List.length_singleton]
  obtain ⟨hr, hh⟩ := sha1Pad_rounds (Rfc3174.zeros m.length) 64 _ _ (Rfc3174.zeros_lt _)
    (h.update [0x80]) (by rw [hlen]; omega) fun j hj => by
      have := hleast j hj
      rw [hlen]
      omega
  refine ⟨?_, hr⟩
  have hend := hh.update (beBytes 8 (s.len * 8).toNat)
  have hpad : m ++ [0x80] ++ List.replicate (Rfc3174.zeros m.length) 0 ++
      beBytes 8 (s.len * 8).toNat = Rfc3174.padded m := by
    rw [h.len, beBytes_len, Rfc3174.padded, List.append_assoc, List.append_assoc]
    rfl
  rw [hpad] at hend
  unfold sha1Final Rfc3174.digest
  dsimp only
  rw [hend.absorbed.eq_foldl]

/-- **Streaming SHA-1 is SHA-1**, for every string and every way to cut it, and the padding loop
ends. The bit length is a number modulo `2^64`, so it is the length of a string below `2^61`. -/
theorem streaming_digest (pieces : List (List UInt8)) :
    sha1Final (pieces.foldl sha1Update sha1Init) = Rfc3174.digest pieces.flatten ∧
    ∃ k < 64, PadRounds (sha1Update (pieces.foldl sha1Update sha1Init) [0x80]) k
      (sha1Pad 64 (sha1Update (pieces.foldl sha1Update sha1Init) [0x80])) := by
  obtain ⟨hd, hr⟩ := (sha1Init_holds.updates pieces).final
  exact ⟨hd, _, Rfc3174.zeros_lt _, hr⟩

/-- **The accept value** is the digest of the key and the GUID in base64. -/
theorem acceptKey_eq (key : List UInt8) :
    acceptKey key = base64 (Rfc3174.digest (key ++ wsGuid)) := by
  rw [acceptKey, ((sha1Init_holds.update key).update wsGuid).final.1]
  rfl

end Netchan.Transport
