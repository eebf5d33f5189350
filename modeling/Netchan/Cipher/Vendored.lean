import Netchan.Cipher.Proof.Aead
import Netchan.Cipher.Proof.Blake2b
import Netchan.Crypto.Sealed
import Netchan.Auth.Core

/-!
# The vendored primitives

`vendored`: the primitives of `nc_crypto` and `nc_auth` with the AEAD and the digest of
`third_party/monocypher.c` in place; the curve functions stay parameters. `vendored_meets`: what the
secure channel relies on holds of them.
-/

namespace Netchan.Cipher

open Lib Crypto

/-- The curve functions. -/
structure Curves where
  x25519 : Key → Key → Key
  x25519PublicKey : Key → Key
  eddsaSign : Bytes 64 → List UInt8 → Bytes 64
  eddsaCheck : Bytes 64 → Key → List UInt8 → Bool

theorem length_lock (key : Key) (nonce : Nonce) (ad plain : List UInt8) :
    (cryptoAeadLock key nonce ad plain).2.length = plain.length := by
  rw [cryptoAeadLock, cryptoAeadWrite_eq]
  exact AeadCtx.length_cipher _ plain

theorem length_lock_nil (key : Key) (nonce : Nonce) (plain : List UInt8) :
    (cryptoAeadLock key nonce [] plain).2.length = plain.length := length_lock key nonce [] plain

/-- A digest of 32 bytes, of the pieces that are fed. -/
def digest32 (pieces : List (List UInt8)) : Key :=
  bytesAt 32 (cryptoBlake2bFinal (pieces.foldl cryptoBlake2bUpdate (cryptoBlake2bInit 32))) 0

/-- The primitives, with no associated data, as `nc_crypto.c` calls them. -/
def vendored (c : Curves) : Monocypher where
  x25519 := c.x25519
  x25519PublicKey := c.x25519PublicKey
  blake2b m := digest32 [m]
  aeadLock key nonce plain := cryptoAeadLock key nonce [] plain
  aeadUnlock key nonce mac cipher := (cryptoAeadUnlock key nonce mac [] cipher).2
  eddsaSign := c.eddsaSign
  eddsaCheck := c.eddsaCheck
  length_lock := length_lock_nil

theorem digest32_flatten (pieces : List (List UInt8)) :
    digest32 pieces = digest32 [pieces.flatten] := by
  have hfed : ∀ l : List (List UInt8),
      cryptoBlake2bFinal (l.foldl cryptoBlake2bUpdate (cryptoBlake2bInit 32)) =
        Rfc7693.digest 32 l.flatten := fun l =>
    Blake2b.Holds.final (fed_pieces (I := Blake2b.Holds 32) (fun _ _ d h => h.update d)
      (blake2bInit_holds 32) l)
  rw [digest32, digest32, hfed, hfed, List.flatten_singleton]

theorem vendored_unlock (c : Curves) (key : Key) (nonce : Nonce) (mac : Mac)
    (cipher plain : List UInt8) :
    (vendored c).aeadUnlock key nonce mac cipher = some plain ↔
      (vendored c).aeadLock key nonce plain = (mac, cipher) := by
  have h := (cryptoAeadInitX key nonce).open_iff mac [] cipher plain
  refine Iff.trans ?_ h
  show (cryptoAeadRead (cryptoAeadInitX key nonce) mac [] cipher).2.2 = some plain ↔ _
  rw [cryptoAeadRead_eq]
  by_cases hm : mac = (cryptoAeadInitX key nonce).mac [] cipher
  · rw [if_pos hm, Prod.mk.injEq]
    exact (and_iff_right rfl).symm
  · rw [if_neg hm, Prod.mk.injEq]
    refine ⟨fun h0 => ?_, fun h0 => ?_⟩
    · cases h0
    · cases h0.2

/-- **What the secure channel relies on** holds of the vendored code, for any curve functions:
decryption undoes encryption and opens nothing that sealing does not make, and `derive_out` and
`nc_auth_signed_digest`, which hash in pieces, give the digests of the one string. -/
theorem vendored_meets (c : Curves) :
    (vendored c).Unlocks ∧
    (∀ key nonce mac cipher plain, (vendored c).aeadUnlock key nonce mac cipher = some plain ↔
      (vendored c).aeadLock key nonce plain = (mac, cipher)) ∧
    (∀ (dhEe dhIs dhSi ephLo ephHi sInit sResp psk : Key) (label : UInt8),
      digest32 [dhEe.val, dhIs.val, dhSi.val, ephLo.val, ephHi.val, sInit.val, sResp.val, psk.val,
        [label]] = deriveOut (vendored c) dhEe dhIs dhSi ephLo ephHi sInit sResp psk label) ∧
    ∀ (sid : Key) (user : CStr) (pk : Key),
      digest32 [Auth.sigLabel, sid.val, [.ofNat (min user.val.length Auth.ncAuthMaxUser)],
        user.val.take (min user.val.length Auth.ncAuthMaxUser), pk.val] =
        Auth.ncAuthSignedDigest (vendored c) sid user pk := by
  have hun := vendored_unlock c
  refine ⟨fun key nonce plain => (hun ..).2 rfl, hun, ?_, fun sid user pk => ?_⟩
  · intro dhEe dhIs dhSi ephLo ephHi sInit sResp psk label
    rw [digest32_flatten]
    show digest32 [_] = digest32 [_]
    simp only [List.flatten_cons, List.flatten_nil, List.append_assoc, List.append_nil]
  · rw [digest32_flatten]
    show digest32 [_] = digest32 [Auth.signedBytes sid user pk]
    simp only [Auth.signedBytes, List.flatten_cons, List.flatten_nil, List.append_assoc,
      List.append_nil]

end Netchan.Cipher
