import Netchan.Keystore.Passwd

/-!
# Secrets under a passphrase

The key file and the `passwd` entry of a passphrase, written with one call of `stretch` and read
with another, whose allocations succeed or fail on their own.

* `keyfileScan_fields`: a file of the magic line and `key value` lines is read as its fields, and
  `ksKeyfileGenerate` writes such a file.
* `stretch_eq_iff`: two calls give one key exactly if the inputs of argon2 are the same, or if no
  memory was there for either: then both give zeros.
* `secrets_open_iff`: for which pairs of calls a secret opens only for its own passphrase.
-/

namespace Netchan.Keystore

open Lib
open Crypto (Key Mac Nonce)

/-! ## The lines of a key file -/

/-- `"key value\n"`. -/
def fieldText (f : List UInt8 × List UInt8) : List UInt8 := f.1 ++ ([32] ++ (f.2 ++ [10]))

/-- A word that a line holds: no white space, no NUL. -/
structure Field (s : List UInt8) : Prop where
  ne : s ≠ []
  plain : Plain s
  noNul : 0 ∉ s
  short : s.length ≤ 160

theorem Field.hex {l : List UInt8} (hne : l ≠ []) (hlen : l.length ≤ 80) : Field (hexEncode l) where
  ne h := by
    have := congrArg List.length h
    rw [length_hexEncode, List.length_nil] at this
    exact hne (List.eq_nil_of_length_eq_zero (by omega))
  plain := hexEncode_plain l
  noNul h := (hexEncode_digits h).2.1 rfl
  short := by
    rw [length_hexEncode]
    omega

theorem keyLine_field (st : KeyScan) {key val : List UInt8} (hk : Field key) (hv : Field val) :
    keyLine st (CStr.ofBytes (fieldText (key, val))) = keyField st key val := by
  have hnul : 0 ∉ fieldText (key, val) := by
    simp only [fieldText, List.mem_append, List.mem_singleton]
    intro h
    rcases h with h | h | h | h
    · exact hk.noNul h
    · exact absurd h (by decide)
    · exact hv.noNul h
    · exact absurd h (by decide)
  have hshort : (160 : Nat) ≤ ksLine - 1 := by decide
  have hwords : scanWords 2 (CStr.ofBytes (fieldText (key, val))) = [key, val] := by
    rw [scanWords, ofBytes_of_notMem hnul, fieldText, ← List.nil_append (key ++ _),
      sscanf_word 1 blank_nil hk.ne hk.plain (Nat.le_trans hk.short hshort)
        (fun b hb => by cases hb; rfl),
      sscanf_word 0 blank_space hv.ne hv.plain (Nat.le_trans hv.short hshort)
        (fun b hb => by cases hb; rfl)]
    rfl
  simp [keyLine, hwords]

theorem foldl_fields (fields : List (List UInt8 × List UInt8)) (st : KeyScan)
    (h : ∀ f ∈ fields, Field f.1 ∧ Field f.2) :
    (lines (ksLine - 1) (fields.flatMap fieldText)).foldl
        (fun st l => keyLine st (CStr.ofBytes l)) st =
      fields.foldl (fun st f => keyField st f.1 f.2) st := by
  induction fields generalizing st with
  | nil => rfl
  | cons f fields ih =>
    obtain ⟨hk, hv⟩ := h f (.head _)
    have hx : 10 ∉ f.1 ++ ([32] ++ f.2) := by
      simp only [List.mem_append, List.mem_singleton]
      intro h
      rcases h with h | h | h
      · exact absurd (hk.plain 10 h) (by decide)
      · exact absurd h (by decide)
      · exact absurd (hv.plain 10 h) (by decide)
    have hlen : (f.1 ++ ([32] ++ f.2)).length < ksLine - 1 := by
      have hk' := hk.short
      have hv' := hv.short
      simp only [List.length_append, List.length_singleton, ksLine]
      omega
    have htext : (f :: fields).flatMap fieldText =
        (f.1 ++ ([32] ++ f.2)) ++ 10 :: fields.flatMap fieldText := by
      simp [fieldText]
    rw [htext, lines_line (by decide) hx hlen, List.foldl_cons, List.foldl_cons,
      ih _ fun g hg => h g (.tail _ hg)]
    have hline : f.1 ++ ([32] ++ f.2) ++ [10] = fieldText (f.1, f.2) := by simp [fieldText]
    rw [hline, keyLine_field st hk hv]

/-- **A key file is read as its fields.** -/
theorem keyfileScan_fields (fields : List (List UInt8 × List UInt8))
    (h : ∀ f ∈ fields, Field f.1 ∧ Field f.2) :
    keyfileScan (some (keyfileMagic ++ 10 :: fields.flatMap fieldText)) =
      let st := fields.foldl (fun st f => keyField st f.1 f.2) {}
      if st.havePk && st.haveSk then some st else none := by
  have hmagic : 10 ∉ keyfileMagic ∧ keyfileMagic.length < ksLine - 1 ∧
      keyfileMagic.isPrefixOf (CStr.ofBytes (keyfileMagic ++ [10])).val = true := by
    decide
  rw [keyfileScan, Option.bind_some, lines_line (by decide) hmagic.1 hmagic.2.1]
  dsimp only
  rw [hmagic.2.2, foldl_fields fields {} h]
  rfl

theorem key_names :
    (Field (ascii "pk") ∧ Field (ascii "kdf") ∧ Field (ascii "salt") ∧ Field (ascii "sk") ∧
      Field (ascii "argon2id") ∧ Field (ascii "none")) ∧
      ascii "kdf" ≠ ascii "pk" ∧ ascii "salt" ≠ ascii "pk" ∧ ascii "salt" ≠ ascii "kdf" ∧
      ascii "sk" ≠ ascii "pk" ∧ ascii "sk" ≠ ascii "kdf" ∧ ascii "sk" ≠ ascii "salt" := by
  refine ⟨⟨?_, ?_, ?_, ?_, ?_, ?_⟩, by decide⟩ <;>
    exact ⟨by decide +kernel, by decide +kernel, by decide +kernel, by decide +kernel⟩

theorem key_texts :
    ascii "pk " = ascii "pk" ++ [32] ∧ ascii "salt " = ascii "salt" ++ [32] ∧
      ascii "sk " = ascii "sk" ++ [32] ∧ ascii "kdf none" = ascii "kdf" ++ ([32] ++ ascii "none") ∧
      ascii "kdf argon2id" = ascii "kdf" ++ ([32] ++ ascii "argon2id") ∧
      ascii "argon2id" ≠ ascii "none" := by
  decide

section
variable (st : KeyScan)

theorem keyField_pk (pk : Key) :
    keyField st (ascii "pk") (ksHexEncode pk) = { st with pk, havePk := true } := by
  rw [keyField, if_pos rfl, ksHexDecode_encode]

theorem keyField_kdf {v : List UInt8} (hv : Field v) :
    keyField st (ascii "kdf") v = { st with kdf := v } := by
  have h := key_names.2
  rw [keyField, if_neg h.1, if_pos rfl, List.take_of_length_le (Nat.le_trans hv.short (by decide))]

theorem keyField_salt {v : List UInt8} (hv : Field v) :
    keyField st (ascii "salt") v = { st with saltHex := v } := by
  have h := key_names.2
  rw [keyField, if_neg h.2.1, if_neg h.2.2.1, if_pos rfl,
    List.take_of_length_le (Nat.le_trans hv.short (by decide))]

theorem keyField_sk {v : List UInt8} (hv : Field v) :
    keyField st (ascii "sk") v = { st with skHex := v, haveSk := true } := by
  have h := key_names.2
  rw [keyField, if_neg h.2.2.2.1, if_neg h.2.2.2.2.1, if_neg h.2.2.2.2.2, if_pos rfl,
    List.take_of_length_le (Nat.le_trans hv.short (by decide))]

end

theorem Field.array {n : Nat} (b : Bytes n) (hn : 0 < n) (hlen : n ≤ 80) : Field (ksHexEncode b) :=
  .hex (List.ne_nil_of_length_pos (by rw [b.property]; exact hn)) (by rw [b.property]; exact hlen)

/-! ## Reading back what was written -/

section
variable (P : Monocypher) (alloc : Bool) (file : File)

/-- What `ks_keyfile_generate` locks: the mac and the ciphertext. -/
def lockedSecret (passphrase : CStr) (seed : Key) (salt : Salt) : Mac × List UInt8 :=
  P.aeadLock (stretch P alloc passphrase salt) (.zero 24) (P.eddsaKeyPair seed).1.val

theorem length_lockedSecret (passphrase : CStr) (seed : Key) (salt : Salt) :
    ((lockedSecret P alloc passphrase seed salt).1.val ++
      (lockedSecret P alloc passphrase seed salt).2).length = 80 := by
  rw [List.length_append, (lockedSecret P alloc passphrase seed salt).1.property, lockedSecret,
    P.length_lock, (P.eddsaKeyPair seed).1.property]

theorem scan_sealed {passphrase : CStr} (seed : Key) (salt : Salt) (hne : passphrase.val ≠ []) :
    keyfileScan (ksKeyfileGenerate P (some seed) (some salt) true alloc file (some passphrase)).2 =
      some { kdf := ascii "argon2id",
             skHex := hexEncode ((lockedSecret P alloc passphrase seed salt).1.val ++
               (lockedSecret P alloc passphrase seed salt).2),
             saltHex := ksHexEncode salt, pk := (P.eddsaKeyPair seed).2,
             havePk := true, haveSk := true } := by
  have hlen := length_lockedSecret P alloc passphrase seed salt
  have hfilter : (some passphrase).filter (fun p => decide (p.val ≠ [])) = some passphrase :=
    Option.filter_some_pos (by simpa using hne)
  have htext : (ksKeyfileGenerate P (some seed) (some salt) true alloc file (some passphrase)).2 =
      some (keyfileMagic ++ 10 :: [(ascii "pk", ksHexEncode (P.eddsaKeyPair seed).2),
        (ascii "kdf", ascii "argon2id"), (ascii "salt", ksHexEncode salt),
        (ascii "sk", hexEncode ((lockedSecret P alloc passphrase seed salt).1.val ++
          (lockedSecret P alloc passphrase seed salt).2))].flatMap fieldText) := by
    simp only [ksKeyfileGenerate, hfilter, key_texts.1, key_texts.2.1, key_texts.2.2.1,
      key_texts.2.2.2.2.1]
    simp [fieldText, lockedSecret]
  have hpk : Field (ksHexEncode (P.eddsaKeyPair seed).2) := .array _ (by decide) (by decide)
  have hsalt : Field (ksHexEncode salt) := .array _ (by decide) (by decide)
  have hsk : Field (hexEncode ((lockedSecret P alloc passphrase seed salt).1.val ++
      (lockedSecret P alloc passphrase seed salt).2)) :=
    .hex (List.ne_nil_of_length_pos (by rw [hlen]; decide)) (Nat.le_of_eq hlen)
  have hk := key_names.1
  rw [htext, keyfileScan_fields]
  · simp only [List.foldl_cons, List.foldl_nil, keyField_pk, keyField_kdf _ hk.2.2.2.2.1,
      keyField_salt _ hsalt, keyField_sk _ hsk, Bool.and_self, if_true]
  · intro f hf
    simp only [List.mem_cons, List.not_mem_nil, or_false] at hf
    rcases hf with rfl | rfl | rfl | rfl
    · exact ⟨hk.1, hpk⟩
    · exact ⟨hk.2.1, hk.2.2.2.2.1⟩
    · exact ⟨hk.2.2.1, hsalt⟩
    · exact ⟨hk.2.2.2.1, hsk⟩

theorem scan_plain {passphrase : Option CStr} (seed : Key) (salt : Option Salt)
    (hempty : ∀ p ∈ passphrase, p.val = []) :
    keyfileScan (ksKeyfileGenerate P (some seed) salt true alloc file passphrase).2 =
      some { kdf := ascii "none", skHex := ksHexEncode (P.eddsaKeyPair seed).1,
             pk := (P.eddsaKeyPair seed).2, havePk := true, haveSk := true } := by
  have hfilter : passphrase.filter (fun p => decide (p.val ≠ [])) = none := by
    cases passphrase with
    | none => rfl
    | some p => exact Option.filter_some_neg (by simpa using hempty p rfl)
  have htext : (ksKeyfileGenerate P (some seed) salt true alloc file passphrase).2 =
      some (keyfileMagic ++ 10 :: [(ascii "pk", ksHexEncode (P.eddsaKeyPair seed).2),
        (ascii "kdf", ascii "none"), (ascii "sk", ksHexEncode (P.eddsaKeyPair seed).1)].flatMap
          fieldText) := by
    simp only [ksKeyfileGenerate, hfilter, key_texts.1, key_texts.2.2.1, key_texts.2.2.2.1]
    simp [fieldText]
  have hpk : Field (ksHexEncode (P.eddsaKeyPair seed).2) := .array _ (by decide) (by decide)
  have hsk : Field (ksHexEncode (P.eddsaKeyPair seed).1) := .array _ (by decide) (by decide)
  have hk := key_names.1
  rw [htext, keyfileScan_fields]
  · simp only [List.foldl_cons, List.foldl_nil, keyField_pk, keyField_kdf _ hk.2.2.2.2.2,
      keyField_sk _ hsk, Bool.and_self, if_true]
  · intro f hf
    simp only [List.mem_cons, List.not_mem_nil, or_false] at hf
    rcases hf with rfl | rfl | rfl
    · exact ⟨hk.1, hpk⟩
    · exact ⟨hk.2.1, hk.2.2.2.2.2⟩
    · exact ⟨hk.2.2.2.1, hsk⟩

/-- A sealed key file is unlocked with the key of the passphrase given. -/
theorem load_sealed {passphrase : CStr} (seed : Key) (salt : Salt) (hne : passphrase.val ≠ [])
    (alloc' : Bool) (given : Option CStr) :
    ksKeyfileLoad P alloc'
        (ksKeyfileGenerate P (some seed) (some salt) true alloc file (some passphrase)).2 given =
      (given.bind fun p => P.aeadUnlock (stretch P alloc' p salt) (.zero 24)
        (lockedSecret P alloc passphrase seed salt).1
        (lockedSecret P alloc passphrase seed salt).2).elim (.error .badPassphrase)
          fun sk => .ok (sk, (P.eddsaKeyPair seed).2) := by
  have hlen := length_lockedSecret P alloc passphrase seed salt
  have hdec := ksHexDecode_encode (.zero 80) (⟨_, hlen⟩ : Bytes 80)
  have hmac : bytesAt 16 ((lockedSecret P alloc passphrase seed salt).1.val ++
      (lockedSecret P alloc passphrase seed salt).2) 0 =
        (lockedSecret P alloc passphrase seed salt).1 :=
    bytesAt_append [] (lockedSecret P alloc passphrase seed salt).1 _
  have htext : ((lockedSecret P alloc passphrase seed salt).1.val ++
      (lockedSecret P alloc passphrase seed salt).2).drop 16 =
        (lockedSecret P alloc passphrase seed salt).2 :=
    List.drop_left' (lockedSecret P alloc passphrase seed salt).1.property
  rw [ksKeyfileLoad, scan_sealed P alloc file seed salt hne]
  dsimp only
  rw [if_neg key_texts.2.2.2.2.2, if_neg (not_not_intro rfl), ksHexDecode_encode]
  rw [ksHexEncode] at hdec
  dsimp only at hdec ⊢
  rw [hdec]
  dsimp only
  rw [hmac, htext]
  cases given with
  | none => rfl
  | some p =>
    rw [Option.bind_some]
    dsimp only
    cases P.aeadUnlock (stretch P alloc' p salt) (.zero 24)
      (lockedSecret P alloc passphrase seed salt).1
      (lockedSecret P alloc passphrase seed salt).2 <;> rfl

/-- A key file without a passphrase loads, whatever is given. -/
theorem load_plain {passphrase : Option CStr} (seed : Key) (salt : Option Salt)
    (hempty : ∀ p ∈ passphrase, p.val = []) (alloc' : Bool) (given : Option CStr) :
    ksKeyfileLoad P alloc' (ksKeyfileGenerate P (some seed) salt true alloc file passphrase).2 given =
      .ok ((P.eddsaKeyPair seed).1.val, (P.eddsaKeyPair seed).2) := by
  rw [ksKeyfileLoad, scan_plain P alloc file seed salt hempty]
  dsimp only
  rw [if_pos rfl, ksHexDecode_encode]

end

/-! ## Two calls of stretch -/

/-- Both calls are without memory, or both have it and argon2 is given the same: the inputs for
which two calls give one key. -/
def Alike (alloc alloc' : Bool) (p q : CStr) : Prop :=
  alloc = false ∧ alloc' = false ∨ alloc = true ∧ alloc' = true ∧ passInput q = passInput p

theorem stretch_eq_iff (P : Monocypher) (alloc alloc' : Bool) (p q : CStr) (salt : Salt)
    (hzero : ∀ x, P.argon2 x salt ≠ .zero 32)
    (hinj : ∀ x, P.argon2 x salt = P.argon2 (passInput p) salt → x = passInput p) :
    stretch P alloc' q salt = stretch P alloc p salt ↔ Alike alloc alloc' p q := by
  unfold stretch Alike
  cases alloc with
  | false =>
    cases alloc' with
    | false => simp
    | true => simp [hzero]
  | true =>
    cases alloc' with
    | false => simp [(hzero _).symm]
    | true =>
      simp only [if_true, Bool.true_eq_false, false_and, true_and, false_or]
      exact ⟨hinj _, fun h => by rw [h]⟩

/-- **Secrets open only for their passphrase.** A file sealed under `p`, or an account of `p`, opens
for `q` only if `q` is `p`, exactly when the two calls of `stretch` are not alike. A file without a
passphrase always loads. -/
theorem secrets_open_iff (P : Monocypher) (alloc alloc' : Bool) (file : File) (seed : Key)
    (salt : Salt) (p : CStr)
    (hzero : ∀ x, P.argon2 x salt ≠ .zero 32)
    (hinj : ∀ x, P.argon2 x salt = P.argon2 (passInput p) salt → x = passInput p)
    (hround : P.aeadUnlock (stretch P alloc p salt) (.zero 24) (lockedSecret P alloc p seed salt).1
      (lockedSecret P alloc p seed salt).2 = some (P.eddsaKeyPair seed).1.val)
    (hopen : ∀ key sk, P.aeadUnlock key (.zero 24) (lockedSecret P alloc p seed salt).1
      (lockedSecret P alloc p seed salt).2 = some sk → key = stretch P alloc p salt) :
    (p.val ≠ [] → ∀ given : Option CStr,
      ((∀ r, ksKeyfileLoad P alloc' (ksKeyfileGenerate P (some seed) (some salt) true alloc file
          (some p)).2 given = .ok r →
        given = some p ∧ r = ((P.eddsaKeyPair seed).1.val, (P.eddsaKeyPair seed).2)) ↔
      ∀ q ∈ given, q = p ∨ ¬Alike alloc alloc' p q)) ∧
    (∀ empty : Option CStr, (∀ e ∈ empty, e.val = []) → ∀ given,
      ksKeyfileLoad P alloc' (ksKeyfileGenerate P (some seed) (some salt) true alloc file empty).2
        given = .ok ((P.eddsaKeyPair seed).1.val, (P.eddsaKeyPair seed).2)) ∧
    ∀ user : CStr, scanFile (ksPasswdAdd (stretch P alloc) (some salt) true file user p).2
        (passwordLine user) = some (salt, stretch P alloc p salt) → ∀ q,
      ((ksCheckPassword (stretch P alloc')
          (ksPasswdAdd (stretch P alloc) (some salt) true file user p).2 user q = true → q = p) ↔
        (q = p ∨ ¬Alike alloc alloc' p q)) := by
  have hsame := fun q => stretch_eq_iff P alloc alloc' p q salt hzero hinj
  refine ⟨fun hne given => ?_, fun empty hempty given => ?_, fun user hentry q => ?_⟩
  · rw [load_sealed P alloc file seed salt hne alloc' given]
    cases given with
    | none => simp
    | some q =>
      rw [Option.bind_some]
      by_cases ha : Alike alloc alloc' p q
      · rw [(hsame q).2 ha, hround]
        constructor
        · intro h q' hq'
          cases hq'
          exact .inl (Option.some.inj (h _ rfl).1)
        · intro h r hr
          cases hr
          exact ⟨congrArg some ((h q rfl).resolve_right (not_not_intro ha)), rfl⟩
      · cases hu : P.aeadUnlock (stretch P alloc' q salt) (.zero 24)
            (lockedSecret P alloc p seed salt).1 (lockedSecret P alloc p seed salt).2 with
        | some sk => exact absurd ((hsame q).1 (hopen _ sk hu)) ha
        | none =>
          constructor
          · intro _ q' hq'
            cases hq'
            exact .inr ha
          · intro _ r hr
            cases hr
  · exact load_plain P alloc file seed (some salt) hempty alloc' given
  · have hcheck : ksCheckPassword (stretch P alloc')
        (ksPasswdAdd (stretch P alloc) (some salt) true file user p).2 user q = true ↔
          Alike alloc alloc' p q := by
      simp only [ksCheckPassword, hentry, decide_eq_true_eq]
      exact hsame q
    rw [hcheck]
    by_cases ha : Alike alloc alloc' p q <;> simp [ha]

theorem length_ones : (List.replicate 32 (1 : UInt8)).length = 32 := List.length_replicate

/-- Functions that behave as monocypher's around one passphrase and one key: argon2 tells the
passphrase from all others, and what is locked opens under that key alone. -/
def lockedUnder (passphrase : List UInt8) (key : Key) : Monocypher where
  x25519 sk _ := sk
  x25519PublicKey sk := sk
  blake2b _ := .zero 32
  aeadLock _ _ text := (.zero 16, text)
  aeadUnlock k _ _ text := if k = key then some text else none
  eddsaSign sk _ := sk
  eddsaCheck _ _ _ := false
  length_lock _ _ _ := rfl
  argon2 x _ := if x = passphrase then ⟨List.replicate 32 1, length_ones⟩
    else ⟨List.replicate 32 2, List.length_replicate⟩
  eddsaKeyPair seed := (.zero 64, seed)

theorem lockedUnder_argon2 (passphrase : List UInt8) (key : Key) (salt : Salt) :
    (∀ x, (lockedUnder passphrase key).argon2 x salt ≠ .zero 32) ∧
      ∀ x, (lockedUnder passphrase key).argon2 x salt =
        (lockedUnder passphrase key).argon2 passphrase salt → x = passphrase := by
  refine ⟨fun x => ?_, fun x h => ?_⟩
  · simp only [lockedUnder]
    split <;> decide
  · by_cases hx : x = passphrase
    · exact hx
    · simp only [lockedUnder, if_neg hx, if_pos] at h
      exact absurd h (by decide)

theorem lockedUnder_unlock {passphrase : List UInt8} {key k : Key} {n : Nonce} {m : Mac}
    {text sk : List UInt8} (h : (lockedUnder passphrase key).aeadUnlock k n m text = some sk) :
    k = key := by
  by_cases hk : k = key
  · exact hk
  · simp only [lockedUnder, if_neg hk] at h
    cases h

/-- The two passphrases of the tests. -/
def sesame : CStr := ⟨ascii "open sesame", by decide +kernel⟩
def sesam : CStr := ⟨ascii "open sesam", by decide +kernel⟩

theorem secrets_open_sesame :
    ksKeyfileLoad (lockedUnder (ascii "open sesame") ⟨List.replicate 32 1, List.length_replicate⟩)
      true (ksKeyfileGenerate
        (lockedUnder (ascii "open sesame") ⟨List.replicate 32 1, List.length_replicate⟩)
        (some (.zero 32)) (some (.zero 16)) true true none (some sesame)).2 (some sesam) ≠
      .ok ((Bytes.zero 64).val, .zero 32) := by
  have hin : passInput sesame = ascii "open sesame" := by decide
  obtain ⟨hzero, hinj⟩ := lockedUnder_argon2 (ascii "open sesame")
    ⟨List.replicate 32 1, List.length_replicate⟩ (.zero 16)
  have h := (secrets_open_iff
    (lockedUnder (ascii "open sesame") ⟨List.replicate 32 1, List.length_replicate⟩) true true none
    (.zero 32) (.zero 16) sesame hzero (hin ▸ hinj) (by decide)
    (fun key sk hk => by
      rw [lockedUnder_unlock hk]
      decide)).1 (by decide) (some sesam)
  intro hload
  refine absurd ((h.2 fun q hq => .inr ?_) _ hload).1 (by decide)
  cases hq
  intro ha
  rcases ha with ⟨h1, -⟩ | ⟨-, -, h1⟩
  · cases h1
  · revert h1
    decide

theorem alice_nul : 0 ∉ ascii "alice" := by decide

/-- Without memory in both calls a file and an account of one passphrase open for another, although
argon2 tells the two apart and the file opens under one key alone. -/
theorem zeros_open_sesam :
    let P := lockedUnder (ascii "open sesame") (.zero 32)
    let alice : CStr := ⟨ascii "alice", alice_nul⟩
    ((∀ x, P.argon2 x (.zero 16) ≠ .zero 32) ∧
      (∀ x, P.argon2 x (.zero 16) = P.argon2 (ascii "open sesame") (.zero 16) →
        x = ascii "open sesame") ∧
      ∀ key sk, P.aeadUnlock key (.zero 24) (lockedSecret P false sesame (.zero 32) (.zero 16)).1
        (lockedSecret P false sesame (.zero 32) (.zero 16)).2 = some sk →
          key = stretch P false sesame (.zero 16)) ∧
      sesam ≠ sesame ∧
      ksKeyfileLoad P false (ksKeyfileGenerate P (some (.zero 32)) (some (.zero 16)) true false none
        (some sesame)).2 (some sesam) = .ok ((Bytes.zero 64).val, .zero 32) ∧
      ksCheckPassword (stretch P false) (ksPasswdAdd (stretch P false) (some (.zero 16)) true none
        alice sesame).2 alice sesam = true :=
  ⟨⟨(lockedUnder_argon2 _ _ _).1, (lockedUnder_argon2 _ _ _).2, fun _ _ h => lockedUnder_unlock h⟩,
    by decide +kernel, by decide +kernel, by decide +kernel⟩

end Netchan.Keystore
