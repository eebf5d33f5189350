import Netchan.Cipher.Blake2b
import Netchan.Cipher.Proof.Poly1305

/-!
# BLAKE2b: the words compute the digest

`F_eq_mangle`: a compression is the `F` of the RFC. `Blake2b.At bs r`: the blocks `bs` are
compressed and the bytes `r` are held, as words with zeros after them. There is a lemma for each
part of an update (`alignWord`, `alignBlock`, `loadBlocks`, `loadRest`), and `Blake2b.Holds.update`
puts them together: the last block is never compressed, so `crypto_blake2b_final` finds it.
-/

namespace Netchan.Cipher

open Lib

/-! ## The compression -/

/-- The work vector as one list. -/
def workVector (v : Hash × Hash) : List UInt64 := v.1.toList ++ v.2.toList

theorem G_eq (v : List UInt64) (a b c d : Nat) (x y : UInt64) (h : [a, b, c, d].Nodup)
    (hl : ∀ i ∈ [a, b, c, d], i < v.length) :
    Rfc7693.G v a b c d x y =
      let g := blake2G (v.getD a 0) (v.getD b 0) (v.getD c 0) (v.getD d 0) x y
      (((v.set a g.1).set b g.2.1).set c g.2.2.1).set d g.2.2.2 := by
  simp only [blake2G, ← UInt64.add_assoc]
  exact set_quad v 0 h hl (fun a b => a + b + x) (fun d a => rotr64 (d ^^^ a) 32) (· + ·)
    (fun b c => rotr64 (b ^^^ c) 24) (fun a b => a + b + y) (fun d a => rotr64 (d ^^^ a) 16) (· + ·)
    fun b c => rotr64 (b ^^^ c) 63

theorem blake2Round_eq (input : List UInt64) (v : Hash × Hash) (s : List Nat) :
    Rfc7693.round input (workVector v) s = workVector (blake2Round input v s) := by
  obtain ⟨⟨v0, v1, v2, v3, v4, v5, v6, v7⟩, ⟨v8, v9, v10, v11, v12, v13, v14, v15⟩⟩ := v
  simp (disch := simp) only [Rfc7693.round, blake2Round, workVector, Hash.toList, G_eq,
    List.cons_append, List.nil_append, List.set_cons_zero, List.set_cons_succ, List.getD_cons_zero,
    List.getD_cons_succ]

theorem blake2Rounds_eq (input : List UInt64) (rows : List (List Nat)) (v : Hash × Hash) :
    rows.foldl (Rfc7693.round input) (workVector v) =
      workVector (rows.foldl (blake2Round input) v) := by
  induction rows generalizing v with
  | nil => rfl
  | cons s rows ih => rw [List.foldl_cons, blake2Round_eq, ih, List.foldl_cons]

/-- `blake2b_compress` is `F`: rows 10 and 11 of `sigma` are the first two again. -/
theorem F_eq_mangle (h : Hash) (b : List UInt8) (t : Nat) (f : Bool) :
    Rfc7693.F h b t f = mangle h (.ofNat t, .ofNat (t / 2 ^ 64)) (Rfc7693.words b) f := by
  have hrows : (List.range 12).map (fun i => sigma.getD (i % 10) []) = sigma := rfl
  have hinit : Rfc7693.init h t f = workVector (h, { iv with
      h4 := iv.h4 ^^^ .ofNat t, h5 := iv.h5 ^^^ .ofNat (t / 2 ^ 64)
      h6 := iv.h6 ^^^ if f then ~~~0 else 0 }) := by
    cases f <;> rfl
  have hrounds := blake2Rounds_eq (Rfc7693.words b) sigma (h, { iv with
      h4 := iv.h4 ^^^ .ofNat t, h5 := iv.h5 ^^^ .ofNat (t / 2 ^ 64)
      h6 := iv.h6 ^^^ if f then ~~~0 else 0 })
  rw [← hinit, ← hrows, List.foldl_map, hrows] at hrounds
  unfold Rfc7693.F mangle
  dsimp only at hrounds ⊢
  rw [hrounds]
  generalize List.foldl (blake2Round (Rfc7693.words b)) _ sigma = v
  rfl

/-! ## The words of a block -/

theorem load64Le_snoc (r : List UInt8) (b : UInt8) {k e : Nat} (hr : r.length = 8 * k + e)
    (he : e < 8) : load64Le (r ++ [b]) (8 * k) =
      load64Le r (8 * k) ||| b.toUInt64 <<< (.ofNat (e <<< 3)) := by
  have hlow : (bytesAt e (r ++ [b]) (8 * k)).val = (bytesAt e r (8 * k)).val := by
    refine List.map_congr_left fun j hj => ?_
    have := List.mem_range.1 hj
    rw [byte_append, if_pos (by omega)]
  have hold : (bytesAt (8 - e) r (8 * k + e)).val = List.replicate (8 - e) 0 := by
    refine List.eq_replicate_iff.2 ⟨(bytesAt _ _ _).property, fun x hx => ?_⟩
    obtain ⟨j, -, rfl⟩ := List.mem_map.1 hx
    exact byte_outside (by omega)
  have hnew : (bytesAt (8 - e) (r ++ [b]) (8 * k + e)).val = b :: List.replicate (7 - e) 0 := by
    obtain ⟨d, hd⟩ : ∃ d, 8 - e = d + 1 := ⟨7 - e, by omega⟩
    rw [hd, show 7 - e = d by omega]
    show List.map _ _ = _
    rw [List.range_succ_eq_map, List.map_cons, List.map_map]
    refine congrArg₂ _ ?_ (List.eq_replicate_iff.2 ⟨by simp, fun x hx => ?_⟩)
    · rw [byte_append, if_neg (by omega), Nat.add_zero, hr, Nat.sub_self]
      rfl
    · obtain ⟨j, -, rfl⟩ := List.mem_map.1 hx
      refine byte_outside ?_
      rw [List.length_append, List.length_singleton]
      show r.length + 1 ≤ 8 * k + e + (j + 1)
      omega
  have hsplit : ∀ s : List UInt8, leVal (bytesAt 8 s (8 * k)).val =
      leVal (bytesAt e s (8 * k)).val + 256 ^ e * leVal (bytesAt (8 - e) s (8 * k + e)).val := by
    intro s
    have h := leVal_bytesAt_add e (8 - e) s (8 * k)
    rwa [show e + (8 - e) = 8 by omega] at h
  have hb := b.toNat_lt
  have hlt := leVal_bytesAt_lt e r (8 * k)
  have hshift : (b.toUInt64 <<< (UInt64.ofNat (e <<< 3))).toNat = b.toNat <<< (8 * e) := by
    rw [UInt64.toNat_shiftLeft, UInt8.toNat_toUInt64, UInt64.toNat_ofNat', Nat.shiftLeft_eq e]
    rw [show e * 2 ^ 3 % 2 ^ 64 % 64 = 8 * e by omega, Nat.shiftLeft_eq]
    refine Nat.mod_eq_of_lt ?_
    calc b.toNat * 2 ^ (8 * e) < 2 ^ 8 * 2 ^ (8 * e) :=
          Nat.mul_lt_mul_of_pos_right hb (Nat.two_pow_pos _)
      _ = 2 ^ (8 + 8 * e) := (Nat.pow_add ..).symm
      _ ≤ 2 ^ 64 := Nat.pow_le_pow_right (by decide) (by omega)
  have hpow : 256 ^ e = 2 ^ (8 * e) := by rw [Nat.pow_mul]
  apply UInt64.toNat_inj.1
  rw [UInt64.toNat_or, toNat_load64Le, toNat_load64Le, hshift, hsplit, hsplit r, hlow, hold, hnew,
    leVal_zeros, leVal, leVal_zeros, Nat.mul_zero, Nat.mul_zero, Nat.add_zero, Nat.add_zero]
  rw [Nat.or_comm, ← Nat.shiftLeft_add_eq_or_of_lt (hpow ▸ hlt), Nat.shiftLeft_eq, hpow]
  ring

@[simp] theorem length_words (b : List UInt8) : (Rfc7693.words b).length = 16 := by
  rw [Rfc7693.words, List.length_map, List.length_range]

theorem words_getElem? (b : List UInt8) {i : Nat} (hi : i < 16) :
    (Rfc7693.words b)[i]? = some (load64Le b (8 * i)) := by
  rw [Rfc7693.words, List.getElem?_map, List.getElem?_range hi]
  rfl

theorem eq_words {l : List UInt64} {b : List UInt8} (hl : l.length = 16)
    (h : ∀ i < 16, l[i]? = some (load64Le b (8 * i))) : l = Rfc7693.words b := by
  refine List.ext_getElem? fun i => ?_
  by_cases hi : i < 16
  · rw [h i hi, words_getElem? b hi]
  · rw [List.getElem?_eq_none (by omega), List.getElem?_eq_none (by rw [length_words]; omega)]

theorem noInput_eq : noInput = Rfc7693.words [] := by
  refine eq_words (by rw [noInput, List.length_replicate]) fun i hi => ?_
  rw [noInput, List.getElem?_replicate_of_lt hi]
  refine congrArg some (UInt64.toNat_inj.1 ?_)
  have hz : (bytesAt 8 [] (8 * i)).val = List.replicate 8 0 :=
    List.eq_replicate_iff.2 ⟨(bytesAt _ _ _).property, fun x hx => by
      obtain ⟨j, -, rfl⟩ := List.mem_map.1 hx
      exact byte_outside (Nat.zero_le _)⟩
  rw [toNat_load64Le, hz, leVal_zeros]
  rfl

theorem orByte_words (r : List UInt8) (b : UInt8) (word start : Nat)
    (hr : r.length = 8 * word + start) (hs : start < 8) (hw : word < 16) :
    orByte (Rfc7693.words r) word start b = Rfc7693.words (r ++ [b]) := by
  refine eq_words (by rw [orByte, List.length_set, length_words]) fun i hi => ?_
  rw [orByte, List.getElem?_set, length_words]
  by_cases hiw : word = i
  · rw [if_pos hiw, if_pos (hiw ▸ hw), List.getD_eq_getElem?_getD, words_getElem? r hw, ← hiw]
    exact congrArg some (load64Le_snoc r b hr hs).symm
  · rw [if_neg hiw, words_getElem? r hi]
    refine congrArg some (load64Le_congr fun k hk => ?_)
    rw [byte_append]
    by_cases hin : 8 * i + k < r.length
    · rw [if_pos hin]
    · rw [if_neg hin, byte_outside (Nat.le_of_not_lt hin), byte_outside]
      rw [List.length_singleton]
      omega

theorem load64LeBuf_getElem? (input : List UInt64) (start : Nat) (src : List UInt8) (n : Nat)
    (h : start + n ≤ input.length) (i : Nat) :
    (load64LeBuf input start src n).length = input.length ∧
    (load64LeBuf input start src n)[i]? =
      if start ≤ i ∧ i < start + n then some (load64Le src (8 * (i - start))) else input[i]? := by
  induction n with
  | zero =>
    rw [if_neg (by omega)]
    exact ⟨rfl, rfl⟩
  | succ n ih =>
    obtain ⟨hlen, hget⟩ := ih (by omega)
    have hs : load64LeBuf input start src (n + 1) =
        (load64LeBuf input start src n).set (start + n) (load64Le src (8 * n)) := by
      rw [load64LeBuf, List.range_succ, List.foldl_append]
      rfl
    rw [hs, List.length_set, List.getElem?_set, hlen, hget]
    refine ⟨rfl, ?_⟩
    by_cases he : start + n = i
    · rw [if_pos he, if_pos (by omega), if_pos (by omega), ← he, Nat.add_sub_cancel_left]
    · rw [if_neg he]
      by_cases hin : start ≤ i ∧ i < start + n
      · rw [if_pos hin, if_pos (by omega)]
      · rw [if_neg hin, if_neg (by omega)]

theorem load64LeBuf_words (r src : List UInt8) {start n : Nat} (hr : r.length = 8 * start)
    (hn : start + n ≤ 16) :
    load64LeBuf (Rfc7693.words r) start src n = Rfc7693.words (r ++ src.take (8 * n)) := by
  have hget := load64LeBuf_getElem? (Rfc7693.words r) start src n (by rw [length_words]; exact hn)
  refine eq_words (by rw [(hget 0).1, length_words]) fun i hi => ?_
  rw [(hget i).2]
  by_cases hin : start ≤ i ∧ i < start + n
  · rw [if_pos hin]
    refine congrArg some (load64Le_congr fun k hk => ?_)
    rw [byte_append, if_neg (by omega), byte_take, if_pos (by omega)]
    congr 1
    omega
  · rw [if_neg hin, words_getElem? r hi]
    refine congrArg some (load64Le_congr fun k hk => ?_)
    rw [byte_append]
    by_cases hir : 8 * i + k < r.length
    · rw [if_pos hir]
    · rw [if_neg hir, byte_outside (Nat.le_of_not_lt hir), byte_take, if_neg (by omega)]

/-- A whole block takes the place of what was there. -/
theorem load64LeBuf_block {input : List UInt64} (hi : input.length = 16) (src : List UInt8) :
    load64LeBuf input 0 src 16 = Rfc7693.words (src.take 128) := by
  have hget := load64LeBuf_getElem? input 0 src 16 (by omega)
  refine eq_words (by rw [(hget 0).1, hi]) fun i hi => ?_
  rw [(hget i).2, if_pos (by omega)]
  refine congrArg some (load64Le_congr fun k hk => ?_)
  rw [byte_take, if_pos (by omega), Nat.sub_zero]

/-! ## The state -/

/-- The state that a digest starts with. -/
def startHash (hashSize : Nat) : Hash :=
  { iv with h0 := iv.h0 ^^^ ((0x01010000 : UInt64) ^^^ .ofNat hashSize) }

/-- The blocks `bs` have been compressed, and the bytes `r` are held. -/
structure Blake2b.At (hashSize : Nat) (ctx : Blake2b) (bs : List (List UInt8)) (r : List UInt8) :
    Prop where
  hash : ctx.hash = (bs.foldl Rfc7693.step (startHash hashSize, 0)).1
  offset : ctx.inputOffset =
    (.ofNat (128 * bs.length), .ofNat (128 * bs.length / 2 ^ 64))
  input : ctx.input = Rfc7693.words r
  idx : ctx.inputIdx = r.length
  size : ctx.hashSize = hashSize
  whole : ∀ b ∈ bs, b.length = 128
  held : r.length ≤ 128

theorem step_count (bs : List (List UInt8)) (h : Hash) (t : Nat) :
    (bs.foldl Rfc7693.step (h, t)).2 = t + 128 * bs.length := by
  induction bs generalizing h t with
  | nil => rfl
  | cons b bs ih =>
    rw [List.foldl_cons, Rfc7693.step, ih, List.length_cons]
    omega

theorem countInput_eq (t y : Nat) (hy : y ≤ 128) :
    countInput (.ofNat t, .ofNat (t / 2 ^ 64)) y = (.ofNat (t + y), .ofNat ((t + y) / 2 ^ 64)) := by
  have hlow : UInt64.ofNat t + UInt64.ofNat y = UInt64.ofNat (t + y) := (UInt64.ofNat_add ..).symm
  have hlt : UInt64.ofNat (t + y) < UInt64.ofNat y ↔ (t + y) / 2 ^ 64 = t / 2 ^ 64 + 1 := by
    rw [UInt64.lt_iff_toNat_lt, UInt64.toNat_ofNat', UInt64.toNat_ofNat']
    omega
  unfold countInput
  dsimp only
  rw [hlow]
  refine congrArg (Prod.mk _) ?_
  by_cases h : UInt64.ofNat (t + y) < UInt64.ofNat y
  · rw [if_pos h, hlt.1 h]
    exact (UInt64.ofNat_add ..).symm
  · have : (t + y) / 2 ^ 64 = t / 2 ^ 64 := by
      have := mt hlt.2 h
      omega
    rw [if_neg h, this]

section
variable {hashSize : Nat} {ctx : Blake2b} {bs : List (List UInt8)} {r message : List UInt8}

theorem blake2bInit_at : (cryptoBlake2bInit hashSize).At hashSize [] [] :=
  { hash := by
      have hz : (0x01010000 : UInt64) ^^^ ((0 : UInt64) <<< 8) = 0x01010000 := by decide
      unfold cryptoBlake2bInit
      rw [hz]
      rfl
    offset := rfl, input := noInput_eq, idx := rfl, size := rfl
    whole := fun _ hb => absurd hb (List.not_mem_nil)
    held := Nat.zero_le _ }

theorem Blake2b.At.compress (h : ctx.At hashSize bs r) (last : Bool) :
    blake2bCompress ctx last = { ctx with
      inputOffset := (.ofNat (128 * bs.length + r.length),
        .ofNat ((128 * bs.length + r.length) / 2 ^ 64))
      hash := Rfc7693.F ctx.hash r (128 * bs.length + r.length) last } := by
  unfold blake2bCompress
  dsimp only
  rw [h.offset, h.idx, countInput_eq _ _ h.held, h.input, F_eq_mangle]

theorem Blake2b.At.flush (h : ctx.At hashSize bs r) (hr : r.length = 128) {c : Blake2b}
    (hc : blake2bCompress ctx false = c) :
    ({ c with inputIdx := 0, input := noInput } : Blake2b).At hashSize (bs ++ [r]) [] := by
  rw [← hc, h.compress]
  refine ⟨?_, ?_, noInput_eq, rfl, h.size, fun b hb => ?_, Nat.zero_le _⟩
  · show Rfc7693.F ctx.hash r _ false = _
    rw [List.foldl_append, List.foldl_cons, List.foldl_nil, Rfc7693.step, step_count, ← h.hash, hr,
      Nat.zero_add]
  · show (UInt64.ofNat _, UInt64.ofNat _) = _
    rw [List.length_append, List.length_singleton, hr, Nat.mul_add]
  · rcases List.mem_append.1 hb with hb | hb
    · exact h.whole b hb
    · rw [List.mem_singleton.1 hb, hr]

theorem Blake2b.At.more (h : ctx.At hashSize bs r) {l : List UInt8} {input : List UInt64} {i : Nat}
    (hin : input = Rfc7693.words (r ++ l)) (hi : i = r.length + l.length)
    (hl : r.length + l.length ≤ 128) :
    ({ ctx with input, inputIdx := i } : Blake2b).At hashSize bs (r ++ l) :=
  ⟨h.hash, h.offset, hin, by rw [List.length_append]; exact hi, h.size, h.whole,
    by rw [List.length_append]; exact hl⟩

/-! ## Updates -/

theorem orBytes_words (r message : List UInt8) (word start n : Nat) (hr : r.length = 8 * word + start)
    (hs : start + n ≤ 8) (hw : n = 0 ∨ word < 16) (hn : n ≤ message.length) :
    (List.range n).foldl (fun input i => orByte input word (start + i) (byte message i))
      (Rfc7693.words r) = Rfc7693.words (r ++ message.take n) := by
  induction n with
  | zero => rw [List.take_zero, List.append_nil]; rfl
  | succ n ih =>
    have htake : message.take (n + 1) = message.take n ++ [byte message n] := by
      rw [List.take_add_one, byte, List.getD_eq_getElem?_getD, List.getElem?_eq_getElem (by omega)]
      rfl
    rw [List.range_succ, List.foldl_append, ih (by omega) (by omega) (by omega), List.foldl_cons,
      List.foldl_nil, orByte_words _ _ _ _ _ (by omega) (by omega), htake, List.append_assoc]
    rw [List.length_append, List.length_take]
    omega

theorem Blake2b.At.alignWord (h : ctx.At hashSize bs r) (message : List UInt8) :
    ∃ l, message = l ++ (alignWord ctx message).2 ∧
      (alignWord ctx message).1.At hashSize bs (r ++ l) ∧
      ((alignWord ctx message).2 = [] ∨ (r ++ l).length % 8 = 0) := by
  have hand : ctx.inputIdx &&& 7 = r.length % 8 := by
    rw [h.idx]
    exact Nat.and_two_pow_sub_one_eq_mod r.length 3
  have hheld := h.held
  unfold Cipher.alignWord
  rw [hand]
  by_cases hz : r.length % 8 ≠ 0
  · rw [if_pos hz]
    obtain ⟨hg, hgz⟩ := gap_spec (.ofNat ctx.inputIdx) 8 (k := 3) (by decide) rfl
    change _ < 8 at hg
    change _ % 8 = 0 at hgz
    rw [UInt64.toNat_ofNat', h.idx] at hgz
    dsimp only
    generalize hnb : min (gap (.ofNat ctx.inputIdx) 8).toNat message.length = nb
    rw [h.idx] at hg hnb
    have hword : ctx.inputIdx >>> 3 = r.length / 8 := by
      rw [h.idx]
      exact Nat.shiftRight_eq_div_pow ..
    have hin := orBytes_words r message (r.length / 8) (r.length % 8) nb (by omega) (by omega)
      (by omega) (by omega)
    rw [hword, h.input, hin]
    have hlen : (message.take nb).length = nb := by
      rw [List.length_take]
      omega
    refine ⟨message.take nb, (List.take_append_drop ..).symm,
      h.more rfl (by rw [h.idx, hlen]) (by omega), ?_⟩
    rw [List.length_append, hlen, List.drop_eq_nil_iff]
    omega
  · rw [if_neg hz]
    exact ⟨[], rfl, by rwa [List.append_nil], Or.inr (by rw [List.append_nil]; omega)⟩

/-- The words up to the end of the block. -/
theorem Blake2b.At.alignBlock (h : ctx.At hashSize bs r) (message : List UInt8)
    (hword : message = [] ∨ r.length % 8 = 0) :
    ∃ l, message = l ++ (alignBlock ctx message).2 ∧
      (alignBlock ctx message).1.At hashSize bs (r ++ l) ∧
      ((alignBlock ctx message).2 = [] ∨ (r ++ l).length % 128 = 0 ∨
        (alignBlock ctx message).2.length < 8 ∧
          (r ++ l).length + (alignBlock ctx message).2.length < 128) := by
  have hand : ctx.inputIdx &&& 127 = r.length % 128 := by
    rw [h.idx]
    exact Nat.and_two_pow_sub_one_eq_mod r.length 7
  have hheld := h.held
  unfold Cipher.alignBlock
  rw [hand]
  by_cases hz : r.length % 128 ≠ 0
  · rw [if_pos hz]
    obtain ⟨hg, hgz⟩ := gap_spec (.ofNat ctx.inputIdx) 128 (k := 7) (by decide) rfl
    change _ < 128 at hg
    change _ % 128 = 0 at hgz
    rw [UInt64.toNat_ofNat', h.idx] at hgz
    dsimp only
    generalize hnw : min (gap (.ofNat ctx.inputIdx) 128).toNat message.length >>> 3 = nw
    rw [h.idx, Nat.shiftRight_eq_div_pow] at hnw
    rw [h.idx] at hg
    have hmul : nw <<< 3 = 8 * nw := by
      rw [Nat.shiftLeft_eq, Nat.mul_comm]
    have hstart : ctx.inputIdx >>> 3 = r.length / 8 := by
      rw [h.idx]
      exact Nat.shiftRight_eq_div_pow ..
    have hlen : (message.take (8 * nw)).length = 8 * nw := by
      rw [List.length_take]
      omega
    rw [hmul, hstart, h.input]
    rcases hword with rfl | hword
    · have hnw0 : nw = 0 := by
        simp only [List.length_nil] at hnw
        omega
      subst hnw0
      exact ⟨[], rfl, h.more (by rw [List.append_nil]; rfl) (by rw [h.idx]; rfl) hheld, Or.inl rfl⟩
    · rw [load64LeBuf_words r message (by omega) (by omega)]
      refine ⟨message.take (8 * nw), (List.take_append_drop ..).symm,
        h.more rfl (by rw [h.idx, hlen]) (by omega), ?_⟩
      rw [List.length_append, hlen, List.length_drop, List.drop_eq_nil_iff]
      omega
  · rw [if_neg hz]
    exact ⟨[], rfl, by rwa [List.append_nil], Or.inr (Or.inl (by rw [List.append_nil]; omega))⟩

theorem compress_input (ctx : Blake2b) (last : Bool) :
    (blake2bCompress ctx last).input = ctx.input := rfl

theorem Blake2b.At.load {c : Blake2b}
    (hhash : c.hash = (bs.foldl Rfc7693.step (startHash hashSize, 0)).1)
    (hoffset : c.inputOffset = (.ofNat (128 * bs.length), .ofNat (128 * bs.length / 2 ^ 64)))
    (hin : c.input.length = 16) (hsize : c.hashSize = hashSize) (hwhole : ∀ b ∈ bs, b.length = 128)
    (hm : 128 ≤ message.length) : (loadBlock c message).At hashSize bs (message.take 128) := by
  have hlen : (message.take 128).length = 128 := by
    rw [List.length_take]
    omega
  rw [loadBlock, load64LeBuf_block hin]
  exact ⟨hhash, hoffset, rfl, hlen.symm, hsize, hwhole, hlen.le⟩

theorem Blake2b.At.block (h : ctx.At hashSize bs r) (message : List UInt8)
    (hr : r.length % 128 = 0) (hm : 128 ≤ message.length) : ∃ bs1,
      (loadBlock (if ctx.inputIdx = 128 then blake2bCompress ctx false else ctx) message).At
        hashSize bs1 (message.take 128) ∧ bs1.flatten = bs.flatten ++ r := by
  have hheld := h.held
  have hidx := h.idx
  have hin : ctx.input.length = 16 := by rw [h.input, length_words]
  have hcin := compress_input ctx false
  generalize hc : blake2bCompress ctx false = c at hcin ⊢
  by_cases hfull : ctx.inputIdx = 128
  · rw [if_pos hfull]
    have hf := h.flush (hidx.symm.trans hfull) hc
    have hclen : c.input.length = 16 := by rw [hcin, hin]
    refine ⟨bs ++ [r], .load hf.hash hf.offset hclen hf.size hf.whole hm, ?_⟩
    rw [List.flatten_append, List.flatten_singleton]
  · rw [if_neg hfull]
    have hr0 : r = [] := List.length_eq_zero_iff.1 (by omega)
    refine ⟨bs, .load h.hash h.offset hin h.size h.whole hm, ?_⟩
    rw [hr0, List.append_nil]

/-- The loop over the whole blocks. -/
theorem Blake2b.At.loadBlocks : ∀ (n : Nat) (message : List UInt8) {ctx : Blake2b}
    {bs : List (List UInt8)} {r : List UInt8}, ctx.At hashSize bs r →
    n = 0 ∨ r.length % 128 = 0 →
    (r = [] → bs = []) → 128 * n ≤ message.length →
    ∃ bs' r', (loadBlocks n ctx message).1.At hashSize bs' r' ∧
      bs'.flatten ++ r' = bs.flatten ++ r ++ message.take (128 * n) ∧
      (loadBlocks n ctx message).2 = message.drop (128 * n) ∧
      (r'.length = r.length ∨ r'.length = 128) ∧ (r' = [] → bs' = [])
  | 0, message, ctx, bs, r, h, _, he, _ =>
    ⟨bs, r, h, by rw [Nat.mul_zero, List.take_zero, List.append_nil], rfl, Or.inl rfl, he⟩
  | n + 1, message, ctx, bs, r, h, hr, he, hn => by
    have htake : message.take (128 * (n + 1)) =
        message.take 128 ++ (message.drop 128).take (128 * n) := by
      rw [Nat.mul_succ, Nat.add_comm, List.take_add]
    have hlen : (message.take 128).length = 128 := by
      rw [List.length_take]
      omega
    obtain ⟨bs1, hat, hflat⟩ := h.block message (by omega) (by omega)
    obtain ⟨bs', r', h1, h2, h3, h4, h5⟩ := Blake2b.At.loadBlocks n (message.drop 128) hat
      (Or.inr (by rw [hlen])) (fun h0 => by rw [h0] at hlen; cases hlen)
      (by rw [List.length_drop]; omega)
    refine ⟨bs', r', h1, ?_, h3.trans ?_, Or.inr ?_, h5⟩
    · rw [h2, hflat, htake]
      simp only [List.append_assoc]
    · rw [List.drop_drop, Nat.mul_succ, Nat.add_comm]
    · rw [hlen] at h4
      exact h4.elim id id

theorem Blake2b.At.bytes (l : List UInt8) : ∀ {ctx : Blake2b} {r : List UInt8},
    ctx.At hashSize bs r → r.length + l.length ≤ 128 →
    (l.foldl loadByte ctx).At hashSize bs (r ++ l) := by
  induction l with
  | nil =>
    intro ctx r h _
    rwa [List.append_nil]
  | cons b l ih =>
    intro ctx r h hl
    rw [List.length_cons] at hl
    have hdiv : ctx.inputIdx >>> 3 = r.length / 8 := by
      rw [h.idx]
      exact Nat.shiftRight_eq_div_pow ..
    have hmod : ctx.inputIdx &&& 7 = r.length % 8 := by
      rw [h.idx]
      exact Nat.and_two_pow_sub_one_eq_mod r.length 3
    have hone := h.more (l := [b]) (orByte_words r b (r.length / 8) (r.length % 8) (by omega)
      (by omega) (by omega)) (i := r.length + 1) rfl (by rw [List.length_singleton]; omega)
    have hrest := ih hone (by rw [List.length_append, List.length_singleton]; omega)
    rw [List.append_assoc] at hrest
    rw [List.foldl_cons, loadByte, hdiv, hmod, h.input, h.idx]
    exact hrest

theorem Blake2b.At.loadRest (h : ctx.At hashSize bs r) (message : List UInt8)
    (hlt : message.length < 128)
    (hm : message = [] ∨ r.length % 128 = 0 ∨
      message.length < 8 ∧ r.length + message.length < 128)
    (he : r = [] → bs = []) :
    ∃ bs' r', (loadRest ctx message).At hashSize bs' r' ∧
      bs'.flatten ++ r' = bs.flatten ++ r ++ message ∧ (r' = [] → bs' = []) := by
  unfold Cipher.loadRest
  by_cases hnil : message.length ≠ 0
  · rw [if_pos hnil]
    have hheld := h.held
    have hidx := h.idx
    -- a block that is full is flushed, and an empty one is all zeros
    have hstart : ∃ bs1 r1, (zeroInput (if ctx.inputIdx = 128 then
          ({ blake2bCompress ctx false with inputIdx := 0 } : Blake2b) else ctx)).At
          hashSize bs1 r1 ∧ bs1.flatten ++ r1 = bs.flatten ++ r ∧ (r1 = [] ∨
            message.length < 8 ∧ r1.length + message.length < 128) := by
      generalize hc : blake2bCompress ctx false = c
      by_cases hfull : ctx.inputIdx = 128
      · rw [if_pos hfull, zeroInput, if_pos rfl]
        have hf := h.flush (hidx.symm.trans hfull) hc
        refine ⟨bs ++ [r], [], hf, ?_, Or.inl rfl⟩
        rw [List.flatten_append, List.flatten_singleton, List.append_nil]
      · rw [if_neg hfull, zeroInput]
        by_cases hzero : ctx.inputIdx = 0
        · rw [if_pos hzero]
          have hr0 : r = [] := List.length_eq_zero_iff.1 (by omega)
          subst hr0
          exact ⟨bs, [], ⟨h.hash, h.offset, noInput_eq, h.idx, h.size, h.whole, h.held⟩, rfl,
            Or.inl rfl⟩
        · rw [if_neg hzero]
          refine ⟨bs, r, h, rfl, Or.inr ?_⟩
          rcases hm with rfl | hm | hm
          · exact absurd rfl hnil
          · omega
          · exact hm
    obtain ⟨bs1, r1, h1, hflat, hor⟩ := hstart
    have hn : message.length >>> 3 = message.length / 8 := Nat.shiftRight_eq_div_pow ..
    have hmul : (message.length / 8) <<< 3 = 8 * (message.length / 8) := by
      rw [Nat.shiftLeft_eq, Nat.mul_comm]
    have hlen : (message.take (8 * (message.length / 8))).length = 8 * (message.length / 8) := by
      rw [List.length_take]
      omega
    have hsum : r1.length + message.length ≤ 128 := by
      rcases hor with rfl | hor
      · simp only [List.length_nil]
        omega
      · omega
    dsimp only at h1 ⊢
    generalize zeroInput _ = ctx1 at h1 ⊢
    have hwords : (loadWords ctx1 message (message.length / 8)).At hashSize bs1
        (r1 ++ message.take (8 * (message.length / 8))) := by
      refine h1.more ?_ ?_ (by omega)
      · rw [h1.input]
        rcases hor with rfl | hor
        · exact load64LeBuf_words [] message rfl (by omega)
        · rw [show message.length / 8 = 0 by omega, Nat.mul_zero, List.take_zero, List.append_nil]
          rfl
      · rw [h1.idx, hmul, hlen]
    have hbytes := hwords.bytes (message.drop (8 * (message.length / 8))) (by
      rw [List.length_append, hlen, List.length_drop]
      omega)
    rw [List.append_assoc, List.take_append_drop] at hbytes
    rw [hn, hmul]
    refine ⟨bs1, r1 ++ message, hbytes, ?_, fun h0 => ?_⟩
    · rw [← List.append_assoc, hflat]
    · rw [(List.append_eq_nil_iff.1 h0).2] at hnil
      exact absurd rfl hnil
  · rw [if_neg hnil]
    have hm0 : message = [] := List.length_eq_zero_iff.1 (not_not.1 hnil)
    exact ⟨bs, r, h, by rw [hm0, List.append_nil], he⟩

end

/-! ## The digest -/

/-- The string `m` has been taken: blocks that are compressed, and the bytes of the last one. -/
def Blake2b.Holds (hashSize : Nat) (ctx : Blake2b) (m : List UInt8) : Prop :=
  ∃ bs r, ctx.At hashSize bs r ∧ bs.flatten ++ r = m ∧ (r = [] → bs = [])

theorem blake2bInit_holds (hashSize : Nat) : (cryptoBlake2bInit hashSize).Holds hashSize [] :=
  ⟨[], [], blake2bInit_at, rfl, fun _ => rfl⟩

/-- **An update appends its message.** -/
theorem Blake2b.Holds.update {hashSize : Nat} {ctx : Blake2b} {m : List UInt8}
    (h : ctx.Holds hashSize m) (message : List UInt8) :
    (cryptoBlake2bUpdate ctx message).Holds hashSize (m ++ message) := by
  obtain ⟨bs, r, hat, hm, he⟩ := h
  unfold cryptoBlake2bUpdate
  by_cases hnil : message.length = 0
  · rw [if_pos hnil, List.length_eq_zero_iff.1 hnil, List.append_nil]
    exact ⟨bs, r, hat, hm, he⟩
  rw [if_neg hnil]
  obtain ⟨l1, hl1, hat1, hor1⟩ := hat.alignWord message
  generalize alignWord ctx message = p1 at hl1 hat1 hor1 ⊢
  obtain ⟨ctx1, rest1⟩ := p1
  obtain ⟨l2, hl2, hat2, hor2⟩ := hat1.alignBlock rest1 hor1
  dsimp only at hl1 hat1 hor1 ⊢
  generalize alignBlock ctx1 rest1 = p2 at hl2 hat2 hor2 ⊢
  obtain ⟨ctx2, rest2⟩ := p2
  dsimp only at hl2 hat2 hor2 ⊢
  have hn : rest2.length >>> 7 = rest2.length / 128 := Nat.shiftRight_eq_div_pow ..
  have he2 : r ++ l1 ++ l2 = [] → bs = [] := fun h0 =>
    he (List.append_eq_nil_iff.1 (List.append_eq_nil_iff.1 h0).1).1
  have hready : rest2.length / 128 = 0 ∨ (r ++ l1 ++ l2).length % 128 = 0 := by
    rcases hor2 with rfl | h | h
    · exact Or.inl rfl
    · exact Or.inr h
    · omega
  obtain ⟨bs3, r3, hat3, hm3, hrest3, hlen3, he3⟩ :=
    Blake2b.At.loadBlocks (rest2.length / 128) rest2 hat2 hready he2 (by omega)
  rw [hn]
  generalize loadBlocks (rest2.length / 128) ctx2 rest2 = p3 at hat3 hrest3 ⊢
  obtain ⟨ctx3, rest3⟩ := p3
  dsimp only at hat3 hrest3 ⊢
  have hl3 : rest3.length = rest2.length % 128 := by
    rw [hrest3, List.length_drop]
    omega
  have hready3 : rest3 = [] ∨ r3.length % 128 = 0 ∨
      rest3.length < 8 ∧ r3.length + rest3.length < 128 := by
    rcases hor2 with rfl | h | h
    · exact Or.inl (List.length_eq_zero_iff.1 hl3)
    · omega
    · omega
  obtain ⟨bs4, r4, hat4, hm4, he4⟩ := hat3.loadRest rest3
    (by rw [hl3]; exact Nat.mod_lt _ (by decide)) hready3 he3
  refine ⟨bs4, r4, hat4, ?_, he4⟩
  rw [hm4, hm3, hrest3, List.append_assoc, List.take_append_drop, hl1, hl2, ← hm]
  simp only [List.append_assoc]

theorem byte_words (l : List UInt64) (i : Nat) :
    byte (l.flatMap store64Le) i = (l.getD (i / 8) 0 >>> (.ofNat (8 * (i % 8)))).toUInt8 := by
  induction l generalizing i with
  | nil =>
    rw [List.flatMap_nil, byte_outside (Nat.zero_le _), List.getD_nil, UInt64.zero_shiftRight]
    rfl
  | cons w l ih =>
    rw [List.flatMap_cons, byte_append, length_store64Le]
    by_cases hi : i < 8
    · rw [if_pos hi, byte_store64Le w hi, Nat.div_eq_of_lt hi, Nat.mod_eq_of_lt hi]
      rfl
    · rw [if_neg hi, ih, show i / 8 = (i - 8) / 8 + 1 by omega, show i % 8 = (i - 8) % 8 by omega]
      rfl

theorem length_storeWords (l : List UInt64) : (l.flatMap store64Le).length = 8 * l.length := by
  induction l with
  | nil => rfl
  | cons w l ih =>
    rw [List.flatMap_cons, List.length_append, ih, length_store64Le, List.length_cons]
    omega

/-- Whole words and the bytes of one more are the first bytes of the words. -/
theorem stored_eq {l : List UInt64} {n : Nat} (hn : n ≤ 8 * l.length) :
    (l.take (n >>> 3)).flatMap store64Le ++
      (List.range' ((n >>> 3) <<< 3) (n - (n >>> 3) <<< 3)).map (fun i =>
        (l.getD (i >>> 3) 0 >>> (.ofNat (8 * (i &&& 7)))).toUInt8) =
    (l.flatMap store64Le).take n := by
  have hdiv : ∀ i, i >>> 3 = i / 8 := fun i => Nat.shiftRight_eq_div_pow ..
  have hand : ∀ i, i &&& 7 = i % 8 := fun i => Nat.and_two_pow_sub_one_eq_mod i 3
  have hmul : (n / 8) <<< 3 = 8 * (n / 8) := by rw [Nat.shiftLeft_eq, Nat.mul_comm]
  simp only [hdiv, hand, hmul]
  have hfirst : ((l.take (n / 8)).flatMap store64Le).length = 8 * (n / 8) := by
    rw [length_storeWords, List.length_take]
    omega
  apply List.ext_getElem
  · rw [List.length_append, hfirst, List.length_map, List.length_range', List.length_take,
      length_storeWords]
    omega
  · intro i h1 h2
    have hi : i < n := by
      rw [List.length_take] at h2
      omega
    rw [getElem_eq_byte h2, byte_take, if_pos hi, byte_words, List.getElem_append]
    by_cases hlt : i < 8 * (n / 8)
    · rw [dif_pos (by rw [hfirst]; exact hlt), getElem_eq_byte, byte_words,
        List.getD_eq_getElem?_getD, List.getElem?_take_of_lt (by omega),
        ← List.getD_eq_getElem?_getD]
    · rw [dif_neg (by rw [hfirst]; exact hlt), List.getElem_map, List.getElem_range', hfirst]
      rw [show 8 * (n / 8) + 1 * (i - 8 * (n / 8)) = i by omega]

/-- **The digest of what was taken.** -/
theorem Blake2b.Holds.final {hashSize : Nat} {ctx : Blake2b} {m : List UInt8}
    (h : ctx.Holds hashSize m) : cryptoBlake2bFinal ctx = Rfc7693.digest hashSize m := by
  obtain ⟨bs, r, hat, hm, he⟩ := h
  have hheld := hat.held
  have hflat := length_flatten_whole hat.whole
  have hlen : m.length = 128 * bs.length + r.length := by
    rw [← hm, List.length_append, hflat, Nat.mul_comm]
  have hdd : Rfc7693.dd m - 1 = bs.length := by
    rw [Rfc7693.dd, hlen]
    by_cases hr : r = []
    · rw [he hr, hr]
      rfl
    · have := List.length_pos_iff.2 hr
      omega
  have hfirst : m.take (128 * bs.length) = bs.flatten := by
    rw [← hm, Nat.mul_comm, ← hflat, List.take_left]
  have hlast : m.drop (128 * bs.length) = r := by
    rw [← hm, Nat.mul_comm, ← hflat, List.drop_left]
  have hblocks : blocks 128 bs.flatten = bs :=
    Split.blocks_eq (r := []) ⟨(List.append_nil _).symm, hat.whole, by decide⟩
  have hhash : (blake2bCompress ctx true).hash =
      Rfc7693.F (bs.foldl Rfc7693.step (startHash hashSize, 0)).1 r m.length true := by
    rw [hat.compress, ← hat.hash, hlen]
  unfold cryptoBlake2bFinal Rfc7693.digest
  dsimp only
  rw [hhash, hat.size, hdd, hfirst, hlast, hblocks]
  refine (stored_eq (Nat.min_le_right hashSize 64)).trans ?_
  refine List.take_eq_take_iff.2 ?_
  rw [length_storeWords]
  show min (min hashSize 64) 64 = min hashSize 64
  omega

/-- **BLAKE2b**: whatever pieces a message is fed in, the digest is that of the RFC. -/
theorem blake2b_exact (hashSize : Nat) (pieces : List (List UInt8)) :
    cryptoBlake2bFinal (pieces.foldl cryptoBlake2bUpdate (cryptoBlake2bInit hashSize)) =
      Rfc7693.digest hashSize pieces.flatten :=
  Blake2b.Holds.final (fed_pieces (I := Blake2b.Holds hashSize) (fun _ _ d h => h.update d)
    (blake2bInit_holds hashSize) pieces)

end Netchan.Cipher
