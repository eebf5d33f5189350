import Netchan.Lib.Fields
import Mathlib.Data.List.Lex

/-!
# nc_crypto

The encrypted transport of `crypto/nc_crypto.c`: the handshake, `nc_crypto_seal` and
`nc_crypto_open` with its replay window.

* The primitives of monocypher are the fields of `Monocypher`. What the theorems need of them
  beyond the lengths of their outputs is a hypothesis there.
* A C array of `n` bytes is `Bytes n`. Flags are booleans; the `int role` is `Role`.
* `verify_peer` is the application's: its answer is an argument of the call that makes it, so that
  it may change over time. `Act` records the calls that a datagram causes.
* A function that returns a length returns the bytes written, and `none` for `NC_CRYPTO_ERR`. The
  copies of secrets that are wiped on the stack are not in the model.
-/

namespace Netchan.Crypto

open Lib

/-! ## Primitives -/

abbrev Key := Bytes 32
abbrev Nonce := Bytes 24
abbrev Mac := Bytes 16

/-- The functions of monocypher that are called here and in `nc_auth`. -/
structure Monocypher where
  /-- `crypto_x25519`: our secret and the peer's public key. -/
  x25519 : Key → Key → Key
  x25519PublicKey : Key → Key
  /-- `crypto_blake2b_*` with a digest of 32 bytes, over all that was hashed. -/
  blake2b : List UInt8 → Key
  /-- `crypto_aead_lock`: the mac and the ciphertext. -/
  aeadLock : Key → Nonce → List UInt8 → Mac × List UInt8
  aeadUnlock : Key → Nonce → Mac → List UInt8 → Option (List UInt8)
  eddsaSign : Bytes 64 → List UInt8 → Bytes 64
  eddsaCheck : Bytes 64 → Key → List UInt8 → Bool
  length_lock : ∀ k n p, (aeadLock k n p).2.length = p.length

/-! ## The session -/

inductive Role
  | initiator
  | responder
  deriving DecidableEq, Repr

abbrev ncCryptoHello : UInt8 := 0x01
abbrev ncCryptoData : UInt8 := 0x02
abbrev ncCryptoHelloLen : Nat := 65
abbrev ncCryptoOverhead : Nat := 25

abbrev labelSid : UInt8 := 0
abbrev labelI2R : UInt8 := 1
abbrev labelR2I : UInt8 := 2

/-- `struct nc_crypto`; `verifyPeer` says whether the callback is there. -/
structure Session where
  role : Role
  haveKey : Bool := false
  failed : Bool := false
  ephSk : Key
  ephPk : Key
  haveStatic : Bool := false
  staticSk : Key := .zero 32
  staticPk : Key := .zero 32
  peerHasStatic : Bool := false
  peerStaticPk : Key := .zero 32
  txKey : Key := .zero 32
  rxKey : Key := .zero 32
  psk : Key := .zero 32
  sid : Key := .zero 32
  txCounter : UInt64 := 0
  rxMax : UInt64 := 0
  rxWindow : UInt64 := 0
  requirePeerStatic : Bool := false
  verifyPeer : Bool := false
  deriving DecidableEq

/-- `struct nc_crypto_cfg`. -/
structure Cfg where
  ephSkSeed : Option Key := none
  psk : Option Key := none
  staticSk : Option Key := none
  requirePeerStatic : Bool := false
  verifyPeer : Bool := false

/-- A call that a HELLO causes: `verify_peer` with the key it is shown and its answer, or the key
derivation with the ephemeral shared secret. -/
inductive Act
  | verify (pk : Option Key) (accepted : Bool)
  | derive (dhEe : Key)
  deriving DecidableEq

section
variable (P : Monocypher)

/-- `nc_crypto_init`; `random` is what the OS gives, `none` if it fails. A `NULL` configuration is
the empty one. -/
def ncCryptoInit (role : Role) (cfg : Cfg) (random : Option Key) : Option Session := do
  let ephSk ← cfg.ephSkSeed.or random
  let c : Session := { role, ephSk, ephPk := P.x25519PublicKey ephSk }
  let c := { c with psk := cfg.psk.getD c.psk }
  let c := match cfg.staticSk with
    | none => c
    | some sk => { c with staticSk := sk, staticPk := P.x25519PublicKey sk, haveStatic := true }
  some { c with requirePeerStatic := cfg.requirePeerStatic, verifyPeer := cfg.verifyPeer }

/-- `nc_crypto_handshake_packet`: zeros stand for "no identity key". -/
def ncCryptoHandshakePacket (c : Session) (cap : Nat) : Option (List UInt8) :=
  if cap < ncCryptoHelloLen then none
  else some (ncCryptoHello :: (c.ephPk.val ++ (if c.haveStatic then c.staticPk else .zero 32).val))

/-! ## Key derivation -/

/-- `derive_out`. -/
def deriveOut (dhEe dhIs dhSi ephLo ephHi sInit sResp psk : Key) (label : UInt8) : Key :=
  P.blake2b (dhEe.val ++ dhIs.val ++ dhSi.val ++ ephLo.val ++ ephHi.val ++ sInit.val ++ sResp.val ++
    psk.val ++ [label])

/-- `memcmp (a, b, 32) > 0`. -/
def memcmpPos (a b : Key) : Bool := b.val < a.val

/-- `derive_session`: the ephemeral shared secret, and the session if the secret is not zero. -/
def deriveSession (c : Session) (peerEph : Key) : Key × Option Session :=
  let dhEe := P.x25519 c.ephSk peerEph
  if dhEe = .zero 32 then (dhEe, none)
  else
    let eph := fun b : Bool => if b then P.x25519 c.ephSk c.peerStaticPk else .zero 32
    let stat := fun b : Bool => if b then P.x25519 c.staticSk peerEph else .zero 32
    let (dhIs, dhSi) := match c.role with
      | .initiator => (eph c.peerHasStatic, stat c.haveStatic)
      | .responder => (stat c.haveStatic, eph c.peerHasStatic)
    let (ephLo, ephHi) := if memcmpPos c.ephPk peerEph then (peerEph, c.ephPk) else (c.ephPk, peerEph)
    let (sInit, sResp) := match c.role with
      | .initiator => (c.staticPk, c.peerStaticPk)
      | .responder => (c.peerStaticPk, c.staticPk)
    let out := deriveOut P dhEe dhIs dhSi ephLo ephHi sInit sResp c.psk
    let (txKey, rxKey) := match c.role with
      | .initiator => (out labelI2R, out labelR2I)
      | .responder => (out labelR2I, out labelI2R)
    (dhEe, some { c with sid := out labelSid, txKey, rxKey, haveKey := true })

/-- `consume_hello` takes the identity key that the peer presents. -/
def Session.presented (c : Session) (peerStatic : Key) : Session :=
  { c with peerHasStatic := decide (peerStatic ≠ .zero 32)
           peerStaticPk := if peerStatic ≠ .zero 32 then peerStatic else c.peerStaticPk }

/-- What `verify_peer` is shown of the peer. -/
def Session.shown (c : Session) : Option Key := if c.peerHasStatic then some c.peerStaticPk else none

/-- `consume_hello` decides whether to trust the peer, then it derives. -/
def judged (answer : Option Key → Bool) (c : Session) (peerEph : Key) : Session × List Act :=
  if c.requirePeerStatic && !c.peerHasStatic then ({ c with failed := true }, [])
  else
    let asked := if c.verifyPeer then [Act.verify c.shown (answer c.shown)] else []
    if c.verifyPeer && !answer c.shown then ({ c with failed := true }, asked)
    else
      match deriveSession P c peerEph with
      | (dhEe, none) => ({ c with failed := true }, asked ++ [.derive dhEe])
      | (dhEe, some c') => (c', asked ++ [.derive dhEe])

/-- `consume_hello`, with what `verify_peer` answers. -/
def consumeHello (answer : Option Key → Bool) (c : Session) (body : List UInt8) :
    Session × List Act :=
  judged P answer (c.presented (bytesAt 32 body 32)) (bytesAt 32 body 0)

/-! ## Datagrams -/

/-- `wr64be`. -/
def wr64be (v : UInt64) : List UInt8 := beBytes 8 v.toNat

/-- `rd64be`. -/
def rd64be (p : List UInt8) (off : Nat) : UInt64 := .ofNat (beVal (bytesAt 8 p off).val)

/-- The nonce of a counter. -/
def nonceOf (counter : UInt64) : Nonce :=
  ⟨wr64be counter ++ List.replicate 16 0, by simp [wr64be]⟩

/-- The datagram that `nc_crypto_seal` writes. -/
def sealed (key : Key) (counter : UInt64) (plain : List UInt8) : List UInt8 :=
  let (mac, ct) := P.aeadLock key (nonceOf counter) plain
  ncCryptoData :: (wr64be counter ++ mac.val ++ ct)

/-- `nc_crypto_seal`. -/
def ncCryptoSeal (c : Session) (plain : List UInt8) (cap : Nat) : Option (List UInt8) × Session :=
  if !c.haveKey then (none, c)
  else if cap < plain.length + ncCryptoOverhead then (none, c)
  else if c.txCounter.toNat = 2 ^ 64 - 1 then (none, c)
  else
    let counter := c.txCounter + 1
    (some (sealed P c.txKey counter plain), { c with txCounter := counter })

/-- `replay_check_and_update`: the session, or `none` for `NC_CRYPTO_ERR`. -/
def replayCheckAndUpdate (c : Session) (counter : UInt64) : Option Session :=
  if counter = 0 then none
  else if counter > c.rxMax then
    let shift := counter - c.rxMax
    let rxWindow := if shift ≥ 64 then 0 else c.rxWindow <<< shift
    some { c with rxWindow := rxWindow ||| 1, rxMax := counter }
  else
    let diff := c.rxMax - counter
    if diff ≥ 64 then none
    else
      let bit := (1 : UInt64) <<< diff
      if c.rxWindow &&& bit ≠ 0 then none
      else some { c with rxWindow := c.rxWindow ||| bit }

/-- `nc_crypto_open`: the plaintext, the session and the calls it made. -/
def ncCryptoOpen (answer : Option Key → Bool) (c : Session) (pkt : List UInt8) (cap : Nat) :
    Option (List UInt8) × Session × List Act :=
  if pkt.length < 1 ∨ c.failed then (none, c, [])
  else if byte pkt 0 = ncCryptoHello then
    if pkt.length ≠ ncCryptoHelloLen then (none, c, [])
    else if !c.haveKey then (some [], consumeHello P answer c (pkt.drop 1))
    else (some [], c, [])
  else if byte pkt 0 = ncCryptoData then
    if !c.haveKey ∨ pkt.length < ncCryptoOverhead then (none, c, [])
    else if pkt.length - ncCryptoOverhead > cap then (none, c, [])
    else
      let counter := rd64be pkt 1
      match P.aeadUnlock c.rxKey (nonceOf counter) (bytesAt 16 pkt 9) (pkt.drop ncCryptoOverhead) with
      | none => (none, c, [])
      | some plain =>
        match replayCheckAndUpdate c counter with
        | none => (none, c, [])
        | some c' => (some plain, c', [])
  else (none, c, [])

end

end Netchan.Crypto
