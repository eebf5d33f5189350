import Netchan.Lib.Hex
import Netchan.Crypto.Core

/-!
# keystore

The files of `auth/keystore.c`: `known_hosts`, `passwd` and the client's key file.

* A `File` is its content, `none` if there is no such file. Whether `open` succeeds for writing,
  what `ks_random` gives and whether `malloc` succeeds are arguments of the call.
* A loop `while (fgets(line, sizeof(line), f))` that ends at its first result is `scanFile` of its
  body: the body returns `none` to go on and a value to break.
* A function that writes a file returns it, with its result code or what it passes out.
-/

namespace Netchan.Keystore

open Lib
open Crypto (Key Mac Nonce)

abbrev ksLine : Nat := 512
abbrev ksSaltLen : Nat := 16
abbrev Salt := Bytes ksSaltLen

/-- The content of a file. -/
abbrev File := Option (List UInt8)

/-- The functions of monocypher that the key store calls. -/
structure Monocypher extends Crypto.Monocypher where
  /-- `crypto_argon2` with the parameters that `stretch` gives it. -/
  argon2 : List UInt8 → Salt → Key
  /-- `crypto_eddsa_key_pair`: the secret and the public key. -/
  eddsaKeyPair : Key → Bytes 64 × Key

/-! ## Small helpers -/

def ksHexEncode {n : Nat} (b : Bytes n) : List UInt8 := hexEncode b.val

/-- `ks_hex_decode`: the array after the call, `.error` for `KS_ERR`. The bytes before the first bad
digit are written. -/
def ksHexDecode {n : Nat} (out : Bytes n) (s : List UInt8) : Except (Bytes n) (Bytes n) :=
  if s.length ≠ n * 2 then .error out
  else if h : (hexRead s).length = n then .ok ⟨hexRead s, h⟩
  else .error ⟨(hexRead s ++ out.val.drop (hexRead s).length).take n, by simp [out.property]; omega⟩

/-- A loop over the lines of a file that breaks at the first result. -/
def scanFile {β : Type} (file : File) (body : CStr → Option β) : Option β :=
  file.bind fun s => (lines (ksLine - 1) s).findSome? fun l => body (CStr.ofBytes l)

/-- `sscanf(line, "%511s ...")` with `k` conversions. -/
def scanWords (k : Nat) (s : CStr) : List (List UInt8) := sscanf (ksLine - 1) k s.val

/-- `line[0] == '#'`. -/
def isComment (s : CStr) : Bool := s.val.head? = some 35

/-- `fprintf` at the end of a file. -/
def fileAppend (file : File) (text : List UInt8) : File := some (file.getD [] ++ text)

/-- What `stretch` gives argon2 of a passphrase: the length is a `uint32_t`. -/
def passInput (passphrase : CStr) : List UInt8 :=
  passphrase.val.take (passphrase.val.length % 2 ^ 32)

/-- `stretch`; `alloc` says whether `malloc` succeeds. -/
def stretch (P : Monocypher) (alloc : Bool) (passphrase : CStr) (salt : Salt) : Key :=
  if alloc then P.argon2 (passInput passphrase) salt else .zero 32

/-! ## known_hosts -/

inductive HostResult
  | unknown
  | matched
  | changed
  deriving DecidableEq, Repr

/-- The loop body of `ks_known_host`. -/
def knownHostLine (host : CStr) (pk : Key) (s : CStr) : Option (HostResult × Option Key) :=
  if isComment s then none
  else match scanWords 2 s with
    | [name, hex] =>
      if name ≠ host.val then none
      else match ksHexDecode (.zero 32) hex with
        | .error _ => none
        | .ok onFile =>
          if onFile = pk then some (.matched, none) else some (.changed, some onFile)
    | _ => none

/-- `ks_known_host`: the result, and what goes to `stored`. -/
def ksKnownHost (file : File) (host : CStr) (pk : Key) : HostResult × Option Key :=
  (scanFile file (knownHostLine host pk)).getD (.unknown, none)

/-- The line of a host: `"%s %s\n"`. -/
def hostText (host : CStr) (pk : Key) : List UInt8 := host.val ++ 32 :: (ksHexEncode pk ++ [10])

/-- `ks_known_host_add`; `true` is `KS_OK`. -/
def ksKnownHostAdd (opened : Bool) (file : File) (host : CStr) (pk : Key) : Bool × File :=
  if opened then (true, fileAppend file (hostText host pk)) else (false, file)

/-! ## passwd -/

/-- The loop body of `ks_user_exists`. -/
def userLine (user : CStr) (s : CStr) : Option Unit :=
  if isComment s then none
  else match scanWords 1 s with
    | [name] => if name = user.val then some () else none
    | _ => none

def ksUserExists (file : File) (user : CStr) : Bool := (scanFile file (userLine user)).isSome

/-- The loop body of `ks_check_password`: the entry that it breaks with. -/
def passwordLine (user : CStr) (s : CStr) : Option (Salt × Key) :=
  if isComment s then none
  else match scanWords 3 s with
    | [name, saltHex, hashHex] =>
      if name ≠ user.val then none
      else match ksHexDecode (.zero ksSaltLen) saltHex, ksHexDecode (.zero 32) hashHex with
        | .ok salt, .ok want => some (salt, want)
        | _, _ => none
    | _ => none

/-- `ks_check_password` over the `stretch` of its call. An unknown name is stretched too; the result
is not looked at. -/
def ksCheckPassword (stretch : CStr → Salt → Key) (file : File) (user password : CStr) : Bool :=
  match scanFile file (passwordLine user) with
  | none => false
  | some (salt, want) => stretch password salt = want

/-- The line of an account: `"%s %s %s\n"`. -/
def accountText (user : CStr) (salt : Salt) (hash : Key) : List UInt8 :=
  user.val ++ 32 :: (ksHexEncode salt ++ 32 :: (ksHexEncode hash ++ [10]))

/-- `ks_passwd_add`; `true` is `KS_OK`. -/
def ksPasswdAdd (stretch : CStr → Salt → Key) (random : Option Salt) (opened : Bool) (file : File)
    (user password : CStr) : Bool × File :=
  match random with
  | none => (false, file)
  | some salt =>
    let hash := stretch password salt
    if opened then (true, fileAppend file (accountText user salt hash)) else (false, file)

/-! ## Client identity key file -/

def keyfileMagic : List UInt8 := ascii "netchan-key-v1"

/-- `ks_keyfile_generate`: `pk_out`, `none` if the call fails. The file is truncated when it is
opened; the two outputs of `ks_random` are `seed` and `salt`. -/
def ksKeyfileGenerate (P : Monocypher) (seed : Option Key) (salt : Option Salt) (opened alloc : Bool)
    (file : File) (passphrase : Option CStr) : Option Key × File :=
  match seed with
  | none => (none, file)
  | some seed =>
    let (sk, pk) := P.eddsaKeyPair seed
    if !opened then (none, file)
    else
      let top := keyfileMagic ++ [10] ++ (ascii "pk " ++ (ksHexEncode pk ++ [10]))
      match passphrase.filter fun p => p.val ≠ [] with
      | some passphrase =>
        match salt with
        | none => (none, some top)
        | some salt =>
          let key := stretch P alloc passphrase salt
          let locked := P.aeadLock key (.zero 24) sk.val
          (some pk, some (top ++ (ascii "kdf argon2id" ++ [10]) ++
            (ascii "salt " ++ (ksHexEncode salt ++ [10])) ++
            (ascii "sk " ++ (hexEncode (locked.1.val ++ locked.2) ++ [10]))))
      | none =>
        (some pk, some (top ++ (ascii "kdf none" ++ [10]) ++
          (ascii "sk " ++ (ksHexEncode sk ++ [10]))))

/-- What `keyfile_scan` has read so far. -/
structure KeyScan where
  kdf : List UInt8 := []
  skHex : List UInt8 := []
  saltHex : List UInt8 := []
  pk : Key := .zero 32
  havePk : Bool := false
  haveSk : Bool := false

/-- What `keyfile_scan` does with the two words of a line. -/
def keyField (st : KeyScan) (key val : List UInt8) : KeyScan :=
  if key = ascii "pk" then
    match ksHexDecode st.pk val with
    | .ok pk => { st with pk, havePk := true }
    | .error pk => { st with pk }
  else if key = ascii "kdf" then { st with kdf := val.take (ksLine - 1) }
  else if key = ascii "salt" then { st with saltHex := val.take (ksLine - 1) }
  else if key = ascii "sk" then { st with skHex := val.take (ksLine - 1), haveSk := true }
  else st

/-- The loop body of `keyfile_scan`. -/
def keyLine (st : KeyScan) (s : CStr) : KeyScan :=
  match scanWords 2 s with
  | [key, val] => keyField st key val
  | _ => st

/-- `keyfile_scan`. -/
def keyfileScan (file : File) : Option KeyScan :=
  file.bind fun s =>
    match lines (ksLine - 1) s with
    | [] => none
    | first :: rest =>
      if !keyfileMagic.isPrefixOf (CStr.ofBytes first).val then none
      else
        let st := rest.foldl (fun st l => keyLine st (CStr.ofBytes l)) {}
        if st.havePk && st.haveSk then some st else none

/-- The errors of `ks_keyfile_load`. -/
inductive LoadError
  /-- `KS_ERR`. -/
  | malformed
  /-- `-2`. -/
  | badPassphrase
  deriving DecidableEq, Repr

/-- `ks_keyfile_load`: the secret and the public key. -/
def ksKeyfileLoad (P : Monocypher) (alloc : Bool) (file : File) (passphrase : Option CStr) :
    Except LoadError (List UInt8 × Key) :=
  match keyfileScan file with
  | none => .error .malformed
  | some st =>
    if st.kdf = ascii "none" then
      match ksHexDecode (.zero 64) st.skHex with
      | .ok sk => .ok (sk.val, st.pk)
      | .error _ => .error .malformed
    else if st.kdf ≠ ascii "argon2id" then .error .malformed
    else match ksHexDecode (.zero ksSaltLen) st.saltHex, ksHexDecode (.zero 80) st.skHex with
      | .ok salt, .ok sealed =>
        match passphrase with
        | none => .error .badPassphrase
        | some passphrase =>
          let key := stretch P alloc passphrase salt
          match P.aeadUnlock key (.zero 24) (bytesAt 16 sealed.val 0) (sealed.val.drop 16) with
          | some sk => .ok (sk, st.pk)
          | none => .error .badPassphrase
      | _, _ => .error .malformed

/-! ## Hexadecimal fields -/

@[simp] theorem length_ksHexEncode {n : Nat} (b : Bytes n) : (ksHexEncode b).length = n * 2 := by
  rw [ksHexEncode, length_hexEncode, b.property]

theorem ksHexDecode_encode {n : Nat} (out b : Bytes n) : ksHexDecode out (ksHexEncode b) = .ok b := by
  have hlen := length_ksHexEncode b
  have hread : hexRead (ksHexEncode b) = b.val := hexRead_encode b.val
  unfold ksHexDecode
  rw [if_neg (not_not_intro hlen), dif_pos (by rw [hread, b.property])]
  exact congrArg Except.ok (Subtype.ext hread)

theorem length_of_decode {n : Nat} {out b : Bytes n} {s : List UInt8}
    (h : ksHexDecode out s = .ok b) : s.length = n * 2 := by
  unfold ksHexDecode at h
  split at h
  · cases h
  · rename_i hlen
    exact Decidable.not_not.1 hlen

end Netchan.Keystore
