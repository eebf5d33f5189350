import Netchan.Cipher.Aead
import Netchan.Cipher.Proof.ChaCha20
import Netchan.Cipher.Proof.Poly1305

/-!
# Authenticated encryption: what is opened is what was sealed

`cryptoVerify16_eq`: the comparison in constant time is equality. `cryptoAeadWrite_eq` and
`cryptoAeadRead_eq` say what the two directions do; both take the code of the cipher text, so a
text is opened when its mac is the one that sealing it gives.
-/

namespace Netchan.Cipher

open Lib

/-! ## Comparing -/

theorem neq0_eq (diff : UInt64) : neq0 diff = if diff = 0 then 0 else -1 := by
  have hhalf : (diff >>> 32 ||| diff.toUInt32.toUInt64) = 0 ↔ diff = 0 := by
    rw [UInt64.or_eq_zero_iff, ← UInt64.toNat_inj, ← UInt64.toNat_inj (b := 0),
      ← UInt64.toNat_inj (a := diff), toNat_high, UInt32.toNat_toUInt64, UInt64.toNat_toUInt32]
    have := diff.toNat_lt
    show _ / 2 ^ 32 = 0 ∧ _ % 2 ^ 32 = 0 ↔ _ = 0
    omega
  have hlt : (diff >>> 32 ||| diff.toUInt32.toUInt64).toNat < 2 ^ 32 := by
    rw [UInt64.toNat_or, toNat_high, UInt32.toNat_toUInt64]
    have := diff.toNat_lt
    exact Nat.or_lt_two_pow (by omega) diff.toUInt32.toNat_lt
  unfold neq0
  dsimp only
  generalize diff >>> 32 ||| diff.toUInt32.toUInt64 = half at hhalf hlt
  refine Eq.trans ?_ (if_congr hhalf rfl rfl)
  by_cases h : half = 0
  · rw [if_pos h, h]
    decide
  · have hone : (half - 1) >>> 32 = 0 := by
      apply UInt64.toNat_inj.1
      have hpos : half.toNat ≠ 0 := fun h0 => h (UInt64.toNat_inj.1 h0)
      have hle : 1 ≤ half := UInt64.le_iff_toNat_le.2 (Nat.pos_of_ne_zero hpos)
      rw [toNat_high, UInt64.toNat_sub_of_le _ _ hle]
      show (half.toNat - 1) / 2 ^ 32 = 0
      omega
    rw [if_neg h, hone]
    decide

theorem load64Le_inj {a b : List UInt8} {i : Nat} :
    load64Le a i = load64Le b i ↔ (bytesAt 8 a i).val = (bytesAt 8 b i).val := by
  refine ⟨fun h => ?_, fun h => by rw [load64Le, load64Le, h]⟩
  have hv : leVal (bytesAt 8 a i).val = leVal (bytesAt 8 b i).val := by
    rw [← toNat_load64Le, ← toNat_load64Le, h]
  have ha := leBytes_leVal (bytesAt 8 a i).val
  have hb := leBytes_leVal (bytesAt 8 b i).val
  rw [(bytesAt 8 a i).property] at ha
  rw [(bytesAt 8 b i).property, ← hv, ha] at hb
  exact hb

theorem bytesAt_whole (b : Bytes 16) :
    (bytesAt 8 b.val 0).val ++ (bytesAt 8 b.val 8).val = b.val := by
  have h := bytesAt_self b.val
  rw [b.property, bytesAt_add 8 8] at h
  exact h

theorem x16_eq_zero {a b : Bytes 16} : x16 a.val b.val = 0 ↔ a = b := by
  rw [x16, UInt64.or_eq_zero_iff, UInt64.xor_eq_zero_iff, UInt64.xor_eq_zero_iff, load64Le_inj,
    load64Le_inj]
  refine ⟨fun h => Subtype.ext ?_, fun h => by rw [h]; exact ⟨rfl, rfl⟩⟩
  rw [← bytesAt_whole a, ← bytesAt_whole b, h.1, h.2]

/-- **The comparison in constant time is equality.** -/
theorem cryptoVerify16_eq (a b : Bytes 16) : cryptoVerify16 a b = if a = b then 0 else -1 :=
  (neq0_eq _).trans (if_congr x16_eq_zero rfl rfl)

/-! ## The code -/

theorem gap_eq (n : Nat) : (gap (.ofNat n) 16).toNat = (16 - n % 16) % 16 := by
  obtain ⟨hg, hz⟩ := gap_spec (.ofNat n) 16 (k := 4) (by decide) rfl
  change _ < 16 at hg
  change _ % 16 = 0 at hz
  rw [UInt64.toNat_ofNat'] at hz
  omega

theorem store64Le_ofNat (n : Nat) : store64Le (.ofNat n) = leBytes 8 n := by
  rw [store64Le, UInt64.toNat_ofNat']
  exact leBytes_mod 8 n

theorem lockAuth_eq (authKey : Bytes 32) (ad cipher : List UInt8) :
    lockAuth authKey ad cipher =
      bytesAt 16 (Rfc8439.mac authKey (Rfc8439.macData ad cipher)) 0 := by
  have h := (((((cryptoPoly1305Init_holds authKey).update ad).update
    (Rfc8439.pad16 ad)).update cipher).update (Rfc8439.pad16 cipher)).update
      (leBytes 8 ad.length ++ leBytes 8 cipher.length)
  unfold lockAuth
  dsimp only
  rw [gap_eq, gap_eq, store64Le_ofNat, store64Le_ofNat]
  refine congrArg (bytesAt 16 · 0) (h.final.trans ?_)
  rw [Rfc8439.macData, List.nil_append, ← List.append_assoc]

/-! ## Both directions -/

theorem cryptoChacha20Djb_some (text : List UInt8) (key : Bytes 32) (nonce : Bytes 8)
    (ctr : UInt64) : (cryptoChacha20Djb (some text) text.length key nonce ctr).1 =
      xorBytes (Djb.stream key nonce ctr.toNat text.length) text := by
  rw [cryptoChacha20Djb_eq _ _ _ _ _ fun t ht => by rw [Option.mem_some.1 ht]]
  rfl

theorem cryptoChacha20Djb_none (n : Nat) (key : Bytes 32) (nonce : Bytes 8) (ctr : UInt64) :
    (cryptoChacha20Djb none n key nonce ctr).1 = Djb.stream key nonce ctr.toNat n := by
  rw [cryptoChacha20Djb_eq _ _ _ _ _ fun t ht => by cases ht]
  rfl

theorem Djb.length_stream (key : Bytes 32) (nonce : Bytes 8) (ctr n : Nat) :
    (Djb.stream key nonce ctr n).length = n := by
  rw [Djb.stream_eq, List.length_append, Djb.length_blocks, List.length_take, Djb.length_block]
  omega

/-- The key of the code is in the first half of the block. -/
theorem authKey_eq (key : Bytes 32) (nonce : Bytes 8) (ctr : Nat) :
    bytesAt 32 (Djb.stream key nonce ctr 64) 0 = bytesAt 32 (Djb.stream key nonce ctr 32) 0 := by
  have hl := Djb.length_stream key nonce ctr 64
  have hl' := Djb.length_stream key nonce ctr 32
  apply Subtype.ext
  rw [bytesAt_eq (by omega), bytesAt_eq (by omega)]
  show ((List.take 64 _).drop 0).take 32 = ((List.take 32 _).drop 0).take 32
  rw [List.drop_zero, List.drop_zero, List.take_take, List.take_take]
  rfl

/-- The cipher text of a context. -/
def AeadCtx.cipher (ctx : AeadCtx) (plain : List UInt8) : List UInt8 :=
  xorBytes (Djb.stream ctx.key ctx.nonce (ctx.counter + 1).toNat plain.length) plain

/-- The code of a cipher text in a context. -/
def AeadCtx.mac (ctx : AeadCtx) (ad cipher : List UInt8) : Bytes 16 :=
  bytesAt 16 (Rfc8439.mac (bytesAt 32 (Djb.stream ctx.key ctx.nonce ctx.counter.toNat 32) 0)
    (Rfc8439.macData ad cipher)) 0

theorem AeadCtx.length_cipher (ctx : AeadCtx) (plain : List UInt8) :
    (ctx.cipher plain).length = plain.length := by
  rw [AeadCtx.cipher, length_xorBytes, Djb.length_stream, Nat.min_self]

theorem AeadCtx.cipher_cipher (ctx : AeadCtx) (plain : List UInt8) :
    ctx.cipher (ctx.cipher plain) = plain := by
  rw [AeadCtx.cipher, ctx.length_cipher, AeadCtx.cipher]
  exact xorBytes_xorBytes (Djb.length_stream ..).ge

theorem cryptoAeadWrite_eq (ctx : AeadCtx) (ad plain : List UInt8) :
    (cryptoAeadWrite ctx ad plain).2 = (ctx.mac ad (ctx.cipher plain), ctx.cipher plain) := by
  unfold cryptoAeadWrite
  dsimp only
  rw [cryptoChacha20Djb_some, cryptoChacha20Djb_none, lockAuth_eq, authKey_eq]
  rfl

theorem cryptoAeadRead_eq (ctx : AeadCtx) (mac : Bytes 16) (ad cipher : List UInt8) :
    (cryptoAeadRead ctx mac ad cipher).2 =
      if mac = ctx.mac ad cipher then (0, some (ctx.cipher cipher)) else (-1, none) := by
  have hmac : lockAuth (bytesAt 32 (cryptoChacha20Djb none 64 ctx.key ctx.nonce ctx.counter).1 0)
      ad cipher = ctx.mac ad cipher := by
    rw [cryptoChacha20Djb_none, lockAuth_eq, authKey_eq]
    rfl
  unfold cryptoAeadRead
  dsimp only
  rw [hmac, cryptoVerify16_eq]
  by_cases h : mac = ctx.mac ad cipher
  · rw [if_pos h, if_pos h, if_pos rfl]
    exact congrArg (fun p => ((0 : Int32), some p)) (cryptoChacha20Djb_some ..)
  · rw [if_neg h, if_neg h]
    rfl

theorem AeadCtx.open_iff (ctx : AeadCtx) (mac : Bytes 16) (ad cipher plain : List UInt8) :
    (cryptoAeadRead ctx mac ad cipher).2 = (0, some plain) ↔
      (cryptoAeadWrite ctx ad plain).2 = (mac, cipher) := by
  rw [cryptoAeadRead_eq, cryptoAeadWrite_eq]
  constructor
  · intro h
    by_cases hm : mac = ctx.mac ad cipher
    · rw [if_pos hm] at h
      rw [← Option.some.inj (Prod.mk.inj h).2, ctx.cipher_cipher, hm]
    · rw [if_neg hm] at h
      cases (Prod.mk.inj h).2
  · intro h
    obtain ⟨hm, hc⟩ := Prod.mk.inj h
    rw [← hc, ctx.cipher_cipher, if_pos hm.symm]

theorem bytesAt_mac (key : Bytes 32) (m : List UInt8) :
    (bytesAt 16 (Rfc8439.mac key m) 0).val = Rfc8439.mac key m := by
  have h := bytesAt_self (Rfc8439.mac key m)
  rwa [show (Rfc8439.mac key m).length = 16 from length_leBytes ..] at h

theorem longNonce_eq (nonce : Bytes 24) :
    longNonce (bytesAt 8 nonce.val 16) = bytesAt 12 (List.replicate 4 0 ++ nonce.val.drop 16) 0 := by
  have h := nonce.property
  rw [longNonce, bytesAt_eq (by omega), List.take_of_length_le (by rw [List.length_drop]; omega)]

/-- The mac and the cipher text of a fresh context are those of RFC 8439. -/
theorem cryptoAeadLock_eq (key : Bytes 32) (nonce : Bytes 24) (ad : List UInt8)
    {plain : List UInt8} (h : plain.length ≤ Rfc8439.maxText) :
    ((cryptoAeadLock key nonce ad plain).1.val, (cryptoAeadLock key nonce ad plain).2) =
      Rfc8439.xaead key nonce ad plain := by
  unfold Rfc8439.maxText at h
  let ctx := cryptoAeadInitX key nonce
  have hlast : 1 + (plain.length + 63) / 64 ≤ 2 ^ 32 := by omega
  have hcipher : ctx.cipher plain = xorBytes (Rfc8439.stream ctx.key 1 (longNonce ctx.nonce)
      plain.length) plain :=
    congrArg (xorBytes · plain) (Djb.stream_rfc8439 ctx.key ctx.nonce hlast)
  have hblock : bytesAt 32 (Djb.stream ctx.key ctx.nonce 0 32) 0 =
      bytesAt 32 (Rfc8439.chacha20Block ctx.key 0 (longNonce ctx.nonce)) 0 := by
    rw [← authKey_eq, Djb.stream_eq]
    refine congrArg (bytesAt 32 · 0) ?_
    show Djb.blocks _ _ 0 1 ++ [] = _
    rw [List.append_nil, Djb.blocks_succ]
    show Djb.block _ _ 0 ++ [] = _
    rw [List.append_nil, Djb.block_rfc8439 _ _ (by decide)]
    rfl
  rw [cryptoAeadLock, cryptoAeadWrite_eq, AeadCtx.mac, bytesAt_mac, Rfc8439.xaead, Rfc8439.aead,
    ← longNonce_eq, ← cryptoChacha20H_eq, hcipher]
  exact congrArg (fun k => (Rfc8439.mac k _, _)) hblock

/-- **Authenticated encryption.** `crypto_aead_lock` makes what RFC 8439 says, with XChaCha20, of every
text that its counter is long enough for. `crypto_aead_unlock` returns 0 and a text exactly for the mac
and the cipher text that sealing this text gives, and for any others it returns -1 and writes no
text. -/
theorem aead_exact (key : Bytes 32) (nonce : Bytes 24) (ad : List UInt8) :
    (∀ plain, plain.length ≤ Rfc8439.maxText →
      ((cryptoAeadLock key nonce ad plain).1.val, (cryptoAeadLock key nonce ad plain).2) =
        Rfc8439.xaead key nonce ad plain) ∧
    (∀ mac cipher plain, cryptoAeadUnlock key nonce mac ad cipher = (0, some plain) ↔
      cryptoAeadLock key nonce ad plain = (mac, cipher)) ∧
    ∀ mac cipher, (∀ plain, cryptoAeadLock key nonce ad plain ≠ (mac, cipher)) →
      cryptoAeadUnlock key nonce mac ad cipher = (-1, none) := by
  refine ⟨fun plain h => cryptoAeadLock_eq key nonce ad h,
    fun mac cipher plain => (cryptoAeadInitX key nonce).open_iff .., fun mac cipher hno => ?_⟩
  have hmac : mac ≠ (cryptoAeadInitX key nonce).mac ad cipher := by
    intro h
    refine hno ((cryptoAeadInitX key nonce).cipher cipher) ?_
    rw [cryptoAeadLock, cryptoAeadWrite_eq, AeadCtx.cipher_cipher, h]
  rw [cryptoAeadUnlock, cryptoAeadRead_eq, if_neg hmac]

/-- A text of three bytes. -/
theorem aead_exact_text :
    ((cryptoAeadLock (.zero 32) (.zero 24) [7] [1, 2, 3]).1.val,
      (cryptoAeadLock (.zero 32) (.zero 24) [7] [1, 2, 3]).2) =
        Rfc8439.xaead (.zero 32) (.zero 24) [7] [1, 2, 3] :=
  (aead_exact (.zero 32) (.zero 24) [7]).1 [1, 2, 3] (by decide)

end Netchan.Cipher
