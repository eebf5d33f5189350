import Netchan.Cipher.ChaCha20
import Netchan.Lib.Xor

/-!
# ChaCha20: the words compute the stream

`poolWords_eq`: the rounds are the block function. `wholeBlocks_eq` is about the loop: each round
takes a block of the text and counts the counter on, through the carry between its words.
`cryptoChacha20Djb_eq`: a text comes out with the key stream over it, no text gives the stream
itself, and the counter is the one that comes next.
-/

namespace Netchan.Cipher

open Lib

theorem store32LeBuf_cons (w : UInt32) (ws : List UInt32) :
    store32LeBuf (w :: ws) = store32Le w ++ store32LeBuf ws := rfl

@[simp] theorem length_store32LeBuf (ws : List UInt32) :
    (store32LeBuf ws).length = 4 * ws.length := by
  induction ws with
  | nil => rfl
  | cons w ws ih =>
    rw [store32LeBuf_cons, List.length_append, ih, length_store32Le, List.length_cons]
    omega

theorem store32LeBuf_xor (ws : List UInt32) {text : List UInt8}
    (h : 4 * ws.length ≤ text.length) :
    store32LeBuf (List.zipWith (· ^^^ ·) ws
      ((List.range ws.length).map fun j => load32Le text (4 * j))) =
      xorBytes (store32LeBuf ws) text := by
  induction ws generalizing text with
  | nil => rfl
  | cons w ws ih =>
    rw [List.length_cons] at h
    have hmap : (List.range (ws.length + 1)).map (fun j => load32Le text (4 * j)) =
        load32Le text 0 :: (List.range ws.length).map fun j => load32Le (text.drop 4) (4 * j) := by
      rw [List.range_succ_eq_map, List.map_cons, List.map_map]
      refine congrArg _ (List.map_congr_left fun j _ => ?_)
      rw [load32Le_drop, Nat.add_comm 4]
      rfl
    have hword : store32Le (w ^^^ load32Le text 0) = xorBytes (store32Le w) text := by
      have hl := store32Le_load32Le (s := text) (by omega)
      have hx := xorBytes_take (store32Le w) text
      rw [length_store32Le, ← hl] at hx
      rw [hx, store32Le, UInt32.toNat_xor, leBytes_xor]
      rfl
    rw [List.length_cons, hmap, List.zipWith_cons_cons, store32LeBuf_cons,
      ih (by rw [List.length_drop]; omega), hword, store32LeBuf_cons, xorBytes_append,
      length_store32Le]

/-! ## The block function -/

theorem qround_eq (s : List UInt32) (x y z w : Nat) (h : [x, y, z, w].Nodup)
    (hl : ∀ i ∈ [x, y, z, w], i < s.length) :
    Rfc8439.qround s x y z w =
      let q := quarterRound (s.getD x 0) (s.getD y 0) (s.getD z 0) (s.getD w 0)
      (((s.set x q.1).set y q.2.1).set z q.2.2.1).set w q.2.2.2 :=
  set_quad s 0 h hl (· + ·) (fun w x => rotl32 (w ^^^ x) 16) (· + ·)
    (fun y z => rotl32 (y ^^^ z) 12) (· + ·) (fun w x => rotl32 (w ^^^ x) 8) (· + ·)
    fun y z => rotl32 (y ^^^ z) 7

theorem innerBlock_eq (t : Words16) : Rfc8439.innerBlock t.toList = (doubleRound t).toList := by
  simp (disch := simp) only [Rfc8439.innerBlock, doubleRound, Words16.toList, qround_eq,
    List.set_cons_zero, List.set_cons_succ, List.getD_cons_zero, List.getD_cons_succ]

theorem rounds_eq (t : Words16) : Rfc8439.rounds t.toList = (chacha20Rounds t).toList := by
  unfold Rfc8439.rounds chacha20Rounds
  generalize List.range 10 = l
  induction l generalizing t with
  | nil => rfl
  | cons i l ih => rw [List.foldl_cons, innerBlock_eq, ih, List.foldl_cons]

theorem poolWords_eq (t : Words16) : poolWords t = Rfc8439.block t.toList := by
  rw [poolWords, ← rounds_eq, Rfc8439.block]

theorem state_eq (key : Bytes 32) (w12 w13 w14 w15 : UInt32) :
    Rfc8439.state key [w12, w13, w14, w15] = (chacha20Input key w12 w13 w14 w15).toList := by
  have hconst : [0, 4, 8, 12].map (load32Le chacha20Constant) =
      [0x61707865, 0x3320646e, 0x79622d32, 0x6b206574] := by decide
  rw [Rfc8439.state, ← hconst]
  rfl

/-- **`crypto_chacha20_h` is HChaCha20.** -/
theorem cryptoChacha20H_eq (key : Bytes 32) (inp : Bytes 16) :
    cryptoChacha20H key inp = Rfc8439.hchacha20 key inp := by
  have hwords : Rfc8439.words 4 inp.val = [load32Le inp.val 0, load32Le inp.val 4,
      load32Le inp.val 8, load32Le inp.val 12] := rfl
  rw [Rfc8439.hchacha20, hwords, state_eq, rounds_eq, cryptoChacha20H]
  exact (List.flatMap_append ..).symm

theorem Djb.block_eq (key : Bytes 32) (nonce : Bytes 8) (ctr : Nat) :
    Djb.block key nonce ctr = store32LeBuf (poolWords (Djb.input key nonce ctr)) := by
  rw [Djb.block, poolWords_eq]

@[simp] theorem length_poolWords (w : Words16) : (poolWords w).length = 16 := rfl

@[simp] theorem Djb.length_block (key : Bytes 32) (nonce : Bytes 8) (ctr : Nat) :
    (Djb.block key nonce ctr).length = 64 := by
  rw [Djb.block_eq, length_store32LeBuf, length_poolWords]

theorem Djb.input_eq (key : Bytes 32) (nonce : Bytes 8) (ctr : Nat) :
    Djb.input key nonce ctr = chacha20Input key (.ofNat ctr) (.ofNat (ctr / 2 ^ 32))
      (load32Le nonce.val 0) (load32Le nonce.val 4) := by
  have hlow : load32Le (leBytes 8 ctr) 0 = .ofNat ctr := by
    apply UInt32.toNat_inj.1
    rw [toNat_load32Le, bytesAt_eq (by rw [length_leBytes]; decide), List.drop_zero,
      leBytes_add 4 4, List.take_left' (length_leBytes ..), leVal_leBytes, UInt32.toNat_ofNat']
    rfl
  have hhigh : load32Le (leBytes 8 ctr) 4 = .ofNat (ctr / 2 ^ 32) := by
    apply UInt32.toNat_inj.1
    rw [toNat_load32Le, bytesAt_eq (by rw [length_leBytes]), leBytes_add 4 4,
      List.drop_left' (length_leBytes ..), List.take_of_length_le (length_leBytes ..).le,
      leVal_leBytes, UInt32.toNat_ofNat']
    rfl
  rw [Djb.input, hlow, hhigh]

theorem bump_input (key : Bytes 32) (nonce : Bytes 8) (ctr : Nat) :
    bump (Djb.input key nonce ctr) = Djb.input key nonce (ctr + 1) := by
  rw [Djb.input_eq, Djb.input_eq]
  have hlow : UInt32.ofNat ctr + 1 = UInt32.ofNat (ctr + 1) := UInt32.ofNat_add ctr 1 |>.symm
  have hzero : UInt32.ofNat (ctr + 1) = 0 ↔ (ctr + 1) % 2 ^ 32 = 0 := by
    rw [← UInt32.toNat_inj, UInt32.toNat_ofNat']
    rfl
  unfold bump chacha20Input
  dsimp only
  rw [hlow]
  by_cases h : UInt32.ofNat (ctr + 1) = 0
  · have hhigh : UInt32.ofNat (ctr / 2 ^ 32) + 1 = UInt32.ofNat ((ctr + 1) / 2 ^ 32) := by
      have := hzero.1 h
      rw [show (ctr + 1) / 2 ^ 32 = ctr / 2 ^ 32 + 1 by omega]
      exact UInt32.ofNat_add _ 1 |>.symm
    rw [if_pos h, hhigh]
  · have hhigh : (ctr + 1) / 2 ^ 32 = ctr / 2 ^ 32 := by
      have := mt hzero.2 h
      omega
    rw [if_neg h, hhigh]

/-- The stream over the text, if there is one. -/
def overText (ks : List UInt8) (plain : Option (List UInt8)) : List UInt8 :=
  plain.elim ks (xorBytes ks)

/-- The blocks from `ctr` on. -/
def Djb.blocks (key : Bytes 32) (nonce : Bytes 8) (ctr n : Nat) : List UInt8 :=
  (List.range n).flatMap fun i => Djb.block key nonce (ctr + i)

theorem Djb.length_blocks (key : Bytes 32) (nonce : Bytes 8) (ctr n : Nat) :
    (Djb.blocks key nonce ctr n).length = 64 * n := by
  induction n with
  | zero => rfl
  | succ n ih =>
    rw [Djb.blocks, List.range_succ, List.flatMap_append, List.length_append, ← Djb.blocks, ih,
      List.flatMap_singleton, Djb.length_block]
    rfl

theorem Djb.blocks_succ (key : Bytes 32) (nonce : Bytes 8) (ctr n : Nat) :
    Djb.blocks key nonce ctr (n + 1) =
      Djb.block key nonce ctr ++ Djb.blocks key nonce (ctr + 1) n := by
  rw [Djb.blocks, List.range_succ_eq_map, List.flatMap_cons, List.flatMap_map]
  refine congrArg _ (List.flatMap_congr fun i _ => ?_)
  rw [Nat.add_assoc, Nat.add_comm 1]

/-- **The loop over the whole blocks.** -/
theorem wholeBlocks_eq (key : Bytes 32) (nonce : Bytes 8) (n ctr : Nat)
    (plain : Option (List UInt8)) (h : ∀ text ∈ plain, 64 * n ≤ text.length) :
    wholeBlocks n (Djb.input key nonce ctr) plain =
      (overText (Djb.blocks key nonce ctr n) plain, Djb.input key nonce (ctr + n)) := by
  induction n generalizing ctr plain with
  | zero => cases plain <;> rfl
  | succ n ih =>
    have hrest : ∀ text ∈ plain.map (·.drop 64), 64 * n ≤ text.length := by
      intro text ht
      obtain ⟨t, hp, rfl⟩ := Option.map_eq_some_iff.1 ht
      have := h t hp
      rw [List.length_drop]
      omega
    have hctr : ctr + 1 + n = ctr + (n + 1) := by omega
    have hloop := ih (ctr + 1) _ hrest
    cases plain with
    | none =>
      rw [wholeBlocks, bump_input, hloop, hctr, overText, overText, Option.elim_none,
        Djb.blocks_succ, Djb.block_eq]
      rfl
    | some text =>
      rw [wholeBlocks, bump_input, hloop, hctr, Djb.blocks_succ]
      have hlen : 4 * (poolWords (Djb.input key nonce ctr)).length ≤ text.length := by
        have := h text rfl
        rw [length_poolWords]
        omega
      have hx := store32LeBuf_xor _ hlen
      rw [length_poolWords] at hx
      show (store32LeBuf (List.zipWith _ _ _) ++ xorBytes _ (text.drop 64), _) = _
      rw [hx]
      refine congrArg (·, _) ?_
      rw [overText, Option.elim_some, xorBytes_append, Djb.length_block, Djb.block_eq]

/-- The counter that comes back is the one that comes next. -/
theorem input_counter (key : Bytes 32) (nonce : Bytes 8) (ctr : Nat) :
    (Djb.input key nonce ctr).t12.toUInt64 + ((Djb.input key nonce ctr).t13.toUInt64 <<< 32) =
      UInt64.ofNat ctr := by
  rw [Djb.input_eq]
  apply UInt64.toNat_inj.1
  rw [UInt64.toNat_add, UInt64.toNat_shiftLeft, UInt32.toNat_toUInt64, UInt32.toNat_toUInt64,
    UInt64.toNat_ofNat']
  show (ctr % 2 ^ 32 + (ctr / 2 ^ 32 % 2 ^ 32) <<< 32 % 2 ^ 64) % 2 ^ 64 = ctr % 2 ^ 64
  rw [Nat.shiftLeft_eq]
  omega

theorem Djb.stream_eq (key : Bytes 32) (nonce : Bytes 8) (ctr n : Nat) :
    Djb.stream key nonce ctr n = Djb.blocks key nonce ctr (n / 64) ++
      (Djb.block key nonce (ctr + n / 64)).take (n % 64) := by
  have hl := Djb.length_blocks key nonce ctr (n / 64)
  by_cases h : n % 64 = 0
  · rw [h, List.take_zero, List.append_nil, Djb.stream, ← Djb.blocks,
      show (n + 63) / 64 = n / 64 by omega, List.take_of_length_le (by omega)]
  · rw [Djb.stream, show (n + 63) / 64 = n / 64 + 1 by omega, List.range_succ, List.flatMap_append,
      List.flatMap_singleton, ← Djb.blocks]
    rw [List.take_append, List.take_of_length_le (by omega), hl]
    congr 2
    omega

/-! ## The stream of RFC 8439 -/

/-- A nonce of 8 bytes, after 4 zeros. -/
def longNonce (nonce : Bytes 8) : Bytes 12 := bytesAt 12 (List.replicate 4 0 ++ nonce.val) 0

theorem words_longNonce (nonce : Bytes 8) :
    Rfc8439.words 3 (longNonce nonce).val = [0, load32Le nonce.val 0, load32Le nonce.val 4] := by
  have hval : (longNonce nonce).val = List.replicate 4 0 ++ nonce.val := by
    have h := bytesAt_self (List.replicate 4 0 ++ nonce.val)
    rwa [List.length_append, List.length_replicate, nonce.property] at h
  have hdrop (i : Nat) : load32Le (List.replicate 4 0 ++ nonce.val) (4 + i) =
      load32Le nonce.val i := by
    rw [← load32Le_drop, List.drop_left' (List.length_replicate ..)]
  have hzero : load32Le (List.replicate 4 0 ++ nonce.val) 0 = 0 := rfl
  rw [hval]
  show [load32Le _ 0, load32Le _ (4 + 0), load32Le _ (4 + 4)] = _
  rw [hzero, hdrop, hdrop]

/-- A counter that fits a word is the counter of RFC 8439. -/
theorem Djb.block_rfc8439 (key : Bytes 32) (nonce : Bytes 8) {ctr : Nat} (h : ctr < 2 ^ 32) :
    Djb.block key nonce ctr = Rfc8439.chacha20Block key (.ofNat ctr) (longNonce nonce) := by
  rw [Djb.block, Djb.input_eq, Nat.div_eq_of_lt h, Rfc8439.chacha20Block, words_longNonce, state_eq]
  rfl

/-- **The key stream is that of RFC 8439** as far as its counter goes. -/
theorem Djb.stream_rfc8439 (key : Bytes 32) (nonce : Bytes 8) {ctr n : Nat}
    (h : ctr + (n + 63) / 64 ≤ 2 ^ 32) :
    Djb.stream key nonce ctr n = Rfc8439.stream key (.ofNat ctr) (longNonce nonce) n := by
  rw [Djb.stream, Rfc8439.stream]
  refine congrArg (List.take n) (List.flatMap_congr fun i hi => ?_)
  have := List.mem_range.1 hi
  rw [Djb.block_rfc8439 key nonce (by omega), UInt32.ofNat_add]

/-! ## The call -/

/-- **`crypto_chacha20_djb`**: the text with the key stream over it, or the stream itself, and the
counter that comes next. -/
theorem cryptoChacha20Djb_eq (plain : Option (List UInt8)) (n : Nat) (key : Bytes 32)
    (nonce : Bytes 8) (ctr : UInt64) (h : ∀ text ∈ plain, text.length = n) :
    cryptoChacha20Djb plain n key nonce ctr =
      (overText (Djb.stream key nonce ctr.toNat n) plain, ctr + .ofNat ((n + 63) / 64)) := by
  have hinput : chacha20Input key ctr.toUInt32 (ctr >>> 32).toUInt32 (load32Le nonce.val 0)
      (load32Le nonce.val 4) = Djb.input key nonce ctr.toNat := by
    rw [Djb.input_eq]
    congr 1
    apply UInt32.toNat_inj.1
    rw [UInt64.toNat_toUInt32, toNat_high, UInt32.toNat_ofNat']
  have hnb : n >>> 6 = n / 64 := Nat.shiftRight_eq_div_pow ..
  have hleft : n &&& 63 = n % 64 := Nat.and_two_pow_sub_one_eq_mod n 6
  have hwhole := wholeBlocks_eq key nonce (n / 64) ctr.toNat plain fun text ht => by
    rw [h text ht]
    omega
  unfold cryptoChacha20Djb
  rw [hinput, hnb, hleft]
  dsimp only
  rw [hwhole]
  dsimp only
  rw [input_counter]
  have htail : ∀ text : List UInt8, n % 64 ≤ text.length →
      (List.range (n % 64)).map (fun i => byte (store32LeBuf (poolWords
        (Djb.input key nonce (ctr.toNat + n / 64)))) i ^^^ byte text i) =
      xorBytes ((Djb.block key nonce (ctr.toNat + n / 64)).take (n % 64)) text := by
    intro text ht
    rw [Djb.block_eq]
    exact map_xor_byte (by rw [← Djb.block_eq, Djb.length_block]; omega) ht
  rw [Djb.stream_eq]
  by_cases hz : n % 64 > 0
  · rw [if_pos hz, if_pos hz, show (n + 63) / 64 = n / 64 + 1 by omega]
    refine Prod.ext ?_ ?_
    · cases plain with
      | none =>
        show Djb.blocks _ _ _ _ ++ List.map _ _ = Djb.blocks _ _ _ _ ++ _
        rw [htail _ (by rw [Option.map_none, Option.getD_none, List.length_replicate]; omega),
          Option.map_none, Option.getD_none, xorBytes_zeros]
        rw [List.length_take]
        omega
      | some text =>
        have hn := h text rfl
        show xorBytes _ text ++ List.map _ _ = xorBytes _ text
        rw [htail _ (by rw [Option.map_some, Option.getD_some, List.length_drop]; omega),
          Option.map_some, Option.getD_some, xorBytes_append, Djb.length_blocks]
    · show UInt64.ofNat (ctr.toNat + n / 64) + 1 = ctr + UInt64.ofNat (n / 64 + 1)
      rw [UInt64.ofNat_add, UInt64.ofNat_add, UInt64.ofNat_toNat, UInt64.add_assoc]
      rfl
  · have h0 : n % 64 = 0 := by omega
    rw [if_neg hz, if_neg hz, show (n + 63) / 64 = n / 64 by omega, h0, List.take_zero,
      List.append_nil, UInt64.ofNat_add, UInt64.ofNat_toNat, UInt64.add_zero]

end Netchan.Cipher
