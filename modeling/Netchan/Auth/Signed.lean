import Netchan.Auth.Client
import Netchan.Auth.Login

/-!
# What a signature says

The client signs the digest of `signedBytes`, and the server checks the signature against the digest of
its own. The two get the name differently: the client cuts it at `NC_AUTH_MAX_USER` bytes, the server
reads it up to the first NUL of a HELLO.

* `signedBytes_injective`: the session, the name and the key can be read off the string.
* `signature_bound`: a PUBKEY message is good in its own conversation and in no other.

What is needed of the primitives: `Monocypher.KeyPair`, `Monocypher.Unforgeable` and
`Monocypher.Apart`.
-/

namespace Netchan.Crypto

open Lib

/-- The secret key belongs to the public one: what it signs checks. -/
def Monocypher.KeyPair (P : Monocypher) (sk : Bytes 64) (pk : Key) : Prop :=
  ∀ d : Key, P.eddsaCheck (P.eddsaSign sk d.val) pk d.val = true

/-- What the key signed for one digest does not check for another. -/
def Monocypher.Unforgeable (P : Monocypher) (sk : Bytes 64) (pk : Key) : Prop :=
  ∀ d d' : Key, P.eddsaCheck (P.eddsaSign sk d.val) pk d'.val = true → d = d'

/-- The two strings are no collision of BLAKE2b. -/
def Monocypher.Apart (P : Monocypher) (x y : List UInt8) : Prop := P.blake2b x = P.blake2b y → x = y

end Netchan.Crypto

namespace Netchan.Auth

open Lib Idl Crypto

/-! ## The bytes that are hashed -/

/-- A name that fits into the struct. -/
abbrev Name := { u : CStr // u.val.length ≤ ncAuthMaxUser }

theorem signedBytes_name (sid : Key) (u : Name) (pk : Key) :
    signedBytes sid u.val pk =
      sigLabel ++ (sid.val ++ (UInt8.ofNat u.val.val.length :: (u.val.val ++ pk.val))) := by
  have hn : min u.val.val.length ncAuthMaxUser = u.val.val.length := Nat.min_eq_left u.property
  simp only [signedBytes, hn, List.take_length, List.append_assoc, List.cons_append,
    List.nil_append]

/-- **The session, the name and the key** can be read off the string that is hashed. -/
theorem signedBytes_injective :
    Function.Injective fun x : Key × Name × Key => signedBytes x.1 x.2.1.val x.2.2 := by
  rintro ⟨sid, u, pk⟩ ⟨sid', u', pk'⟩ h
  simp only [signedBytes_name] at h
  obtain ⟨-, h⟩ := List.append_inj h rfl
  obtain ⟨hsid, h⟩ := List.append_inj h (sid.property.trans sid'.property.symm)
  obtain ⟨hn, h⟩ := List.cons.inj h
  have hlen : u.val.val.length = u'.val.val.length := by
    have hu := u.property
    have hu' := u'.property
    have h1 := congrArg UInt8.toNat hn
    simp only [ncAuthMaxUser] at hu hu'
    rw [UInt8.toNat_ofNat', UInt8.toNat_ofNat'] at h1
    omega
  obtain ⟨hu, hpk⟩ := List.append_inj h hlen
  rw [Subtype.ext hsid, Subtype.ext (Subtype.ext hu : u.val = u'.val), Subtype.ext hpk]

/-! ## The messages -/

section
variable {P : Monocypher} {env : Env} {a : NcAuth} {sk : Bytes 64} {pk : Key} {msg : List UInt8}

/-- The message that `nc_auth_supply_key` sends. -/
def pubkeyMsg (pk : Key) (sig : Bytes 64) : List UInt8 := msgPubkey :: (pk.val ++ sig.val)

theorem supplyKey_emits (h : .emit msg ∈ (ncAuthSupplyKey P a (some (sk, pk))).2) :
    msg = pubkeyMsg pk (P.eddsaSign sk (ncAuthSignedDigest P a.sid a.user pk).val) := by
  unfold ncAuthSupplyKey at h
  split at h
  · cases h
  dsimp only [emit] at h
  split at h
  · simpa [pubkeyMsg] using h
  · cases h

theorem start_emits (h : .emit msg ∈ ncAuthStart a) :
    msg = msgHello :: UInt8.ofNat a.user.val.length :: a.user.val := by
  unfold ncAuthStart at h
  split at h
  · cases h
  dsimp only [emit] at h
  split at h
  · simpa using h
  · cases h

theorem length_pubkeyMsg (pk : Key) (sig : Bytes 64) : (pubkeyMsg pk sig).length = 97 := by
  rw [pubkeyMsg, List.length_cons, List.length_append, pk.property, sig.property]

theorem pubkeyMsg_key (pk : Key) (sig : Bytes 64) : bytesAt 32 (pubkeyMsg pk sig) 1 = pk :=
  bytesAt_append [msgPubkey] pk sig.val

theorem pubkeyMsg_sig (pk : Key) (sig : Bytes 64) : bytesAt 64 (pubkeyMsg pk sig) 33 = sig := by
  have h := bytesAt_append (msgPubkey :: pk.val) sig []
  rwa [List.append_nil, List.length_cons, pk.property] at h

/-! ## The server's side -/

theorem hello_accepted (hs : a.server = true) (ht : byte msg 0 = msgHello)
    (hok : (ncAuthFeed P env a msg).1 = true) :
    (ncAuthFeed P env a msg).2.1.user = .ofBytes (msg.drop 2) ∧
      (ncAuthFeed P env a msg).2.1.greeted = true ∧ msg.length ≤ 2 + ncAuthMaxUser := by
  have hfed : Fed P env a msg (ncAuthFeed P env a msg) := feed_cases hs
  generalize ncAuthFeed P env a msg = r at hfed hok
  cases hfed with
  | ignored => cases hok
  | error hp => cases hok
  | hello hp ht' hg hlen hu =>
    obtain ⟨avail, state, he, -, -⟩ :=
      serverOffer_spec env { a with user := .ofBytes (msg.drop 2), greeted := true }
    dsimp only
    rw [he]
    exact ⟨rfl, rfl, by omega⟩
  | pubkey hp ht' hg hlen => exact absurd (ht.symm.trans ht') (by decide)
  | password hp ht' hg hlen => exact absurd (ht.symm.trans ht') (by decide)
  | started hp ht' hg hi hm => exact absurd (ht.symm.trans ht') (by decide)
  | submit hp ht' hi => exact absurd (ht.symm.trans ht') (by decide)
  | cancel hp ht' hi =>
    rw [ht'] at ht
    exact absurd ht (by decide)

/-- A name that was accepted fits. -/
theorem named_length {sid : Key} {cbs : Callbacks} {buf : Option Nat} {ss : List ServerCall} {u : CStr}
    (hss : ∀ c ∈ ss, c ≠ ServerCall.clear) (h : Named P (fresh sid cbs buf) ss u) :
    u.val.length ≤ ncAuthMaxUser := by
  obtain ⟨pre, env, msg, suf, rfl, ht, rfl, hok⟩ := h
  have hpre : ∀ c ∈ pre, c ≠ ServerCall.clear := fun c hc => hss c (List.mem_append_left _ hc)
  have hs := (serving_run (P := P) (serving_fresh sid cbs buf) hpre).server
  obtain ⟨-, -, hlen⟩ := hello_accepted hs ht hok
  calc (CStr.ofBytes (msg.drop 2)).val.length ≤ (msg.drop 2).length :=
        (List.takeWhile_prefix _).length_le
    _ ≤ ncAuthMaxUser := by
      rw [List.length_drop]
      omega

theorem serverPubkey_ok {sig : Bytes 64} (hne : a.state ≠ .ok)
    (hok : (serverPubkey P env a pk sig).1.state = .ok) :
    P.eddsaCheck sig pk (ncAuthSignedDigest P a.sid a.user pk).val = true := by
  have hdeny (spent : UInt32) : (serverDeny a spent).1.state ≠ .ok := by
    obtain ⟨avail, state, he, hst, -⟩ := serverDeny_spec a spent
    rw [he]
    rcases hst with ⟨rfl, -⟩ | rfl
    · exact hne
    · exact nofun
  unfold serverPubkey at hok
  split at hok
  · exact absurd hok (hdeny 0)
  dsimp only at hok
  split at hok
  · rename_i h
    simp only [Bool.and_eq_true] at h
    exact h.1.1
  · exact absurd hok (hdeny mPubkey)

/-- A PUBKEY message is the only way in that it opens. -/
theorem pubkey_ok (hs : a.server = true) (hne : a.state ≠ .ok) (ht : byte msg 0 = msgPubkey)
    (hok : (ncAuthFeed P env a msg).2.1.state = .ok) :
    a.greeted = true ∧ P.eddsaCheck (bytesAt 64 msg 33) (bytesAt 32 msg 1)
      (ncAuthSignedDigest P a.sid a.user (bytesAt 32 msg 1)).val = true := by
  have hfed : Fed P env a msg (ncAuthFeed P env a msg) := feed_cases hs
  generalize ncAuthFeed P env a msg = r at hfed hok
  cases hfed with
  | ignored => exact absurd hok hne
  | error hp => cases hok
  | hello hp ht' hg hlen hu => exact absurd (ht.symm.trans ht') (by decide)
  | pubkey hp ht' hg hlen => exact ⟨hg, serverPubkey_ok hne hok⟩
  | password hp ht' hg hlen => exact absurd (ht.symm.trans ht') (by decide)
  | started hp ht' hg hi hm => exact absurd (ht.symm.trans ht') (by decide)
  | submit hp ht' hi => exact absurd (ht.symm.trans ht') (by decide)
  | cancel hp ht' hi =>
    rw [ht'] at ht
    exact absurd ht (by decide)

theorem feed_pubkey {sig : Bytes 64} (hs : a.server = true) (hp : a.state = .pending)
    (hg : a.greeted = true) :
    ncAuthFeed P env a (pubkeyMsg pk sig) = (true, serverPubkey P env a pk sig) := by
  have hlen := length_pubkeyMsg pk sig
  have hb : byte (pubkeyMsg pk sig) 0 = msgPubkey := rfl
  have hf : serverFeed P env a (pubkeyMsg pk sig) = some (serverPubkey P env a pk sig) := by
    unfold serverFeed
    dsimp only
    rw [if_neg (by rw [hb]; decide), if_pos hb, if_neg (by simp [hg, hlen]), pubkeyMsg_key,
      pubkeyMsg_sig]
  unfold ncAuthFeed
  rw [if_neg (by simp [hlen, hp]), if_neg (by simp +decide [hlen, hb]), if_pos hs, hf]

/-- The signature is checked if keys are on offer, and a key that is known gets in. -/
theorem serverPubkey_checks {sig : Bytes 64} (hav : a.avail &&& mPubkey ≠ 0)
    (hsig : P.eddsaCheck sig pk (ncAuthSignedDigest P a.sid a.user pk).val = true) :
    .checkSig (ncAuthSignedDigest P a.sid a.user pk) pk true ∈ (serverPubkey P env a pk sig).2 ∧
      (a.cbs.checkKey = true → env.checkKey a.user pk = true →
        (serverPubkey P env a pk sig).1.state = .ok) := by
  unfold serverPubkey
  rw [if_neg hav]
  dsimp only
  rw [hsig]
  split
  · exact ⟨by simp, fun _ _ => rfl⟩
  · rename_i h
    simp only [Bool.true_and] at h
    exact ⟨by simp [andThen], fun h1 h2 => absurd (by simp [h1, h2]) h⟩

end

/-! ## Binding -/

section
variable (P : Monocypher) (cl sv : NcAuth)

/-- The server accepted a HELLO of the client. -/
def Greeted (cs : List ClientCall) (ss : List ServerCall) : Prop :=
  ∃ cs' hello pre env suf, cs' <+: cs ∧ .emit hello ∈ ncAuthStart (run (ClientCall.apply P) cl cs') ∧
    ss = pre ++ .feed env hello :: suf ∧
    (ncAuthFeed P env (run (ServerCall.apply P) sv pre) hello).1 = true

variable {P cl sv} {cs : List ClientCall} {ss : List ServerCall}

theorem Greeted.user (h : Greeted P cl sv cs ss) (hcl : cl.server = false) (hsv : Serving sv)
    (hss : ∀ c ∈ ss, c ≠ ServerCall.clear) :
    (run (ServerCall.apply P) sv ss).greeted = true ∧
      (run (ServerCall.apply P) sv ss).user = cl.user := by
  obtain ⟨cs', hello, pre, env, suf, -, hstart, rfl, hok⟩ := h
  have hpre : ∀ c ∈ pre, c ≠ ServerCall.clear := fun c hc => hss c (List.mem_append_left _ hc)
  have hsuf : ∀ c ∈ suf, c ≠ ServerCall.clear :=
    fun c hc => hss c (List.mem_append_right _ (.tail _ hc))
  have hserving := serving_run (P := P) hsv hpre
  have hmsg := start_emits hstart
  have hkept : Kept cl (run (ClientCall.apply P) cl cs') := kept_run hcl cs'
  have hb : byte hello 0 = msgHello := by rw [hmsg]; rfl
  obtain ⟨hu, hg, -⟩ := hello_accepted hserving.server hb hok
  have hname : CStr.ofBytes (hello.drop 2) = cl.user := by
    rw [hmsg, List.drop_succ_cons, List.drop_succ_cons, List.drop_zero, ofBytes_val, hkept.user]
  rw [run_append, run_cons]
  have hnext : Serving (ServerCall.apply P (run (ServerCall.apply P) sv pre) (.feed env hello)) :=
    hserving.step nofun
  obtain ⟨h1, h2⟩ := (run_frame (P := P) hnext hsuf).2.2 hg
  exact ⟨h1, h2.trans (hu.trans hname)⟩

end

/-- **A signature is bound to its session, user and key.** What is hashed determines the three. A
PUBKEY message that a client built in one conversation gets a server conversation to succeed only if
the session and the user are the same, and then, at the server that accepted the client's HELLO, its
signature checks. -/
theorem signature_bound {P : Monocypher} {sk : Bytes 64} {pk : Key} (hkeys : P.KeyPair sk pk)
    (hforge : P.Unforgeable sk pk) {sid sid' : Key} {user : CStr} {send : Bool} {buf buf' : Option Nat}
    {cbs : Callbacks} {cs : List ClientCall} {ss : List ServerCall}
    (hss : ∀ c ∈ ss, c ≠ ServerCall.clear) {msg : List UInt8}
    (hmsg : .emit msg ∈
      (ncAuthSupplyKey P (run (ClientCall.apply P) (newClient sid user send buf) cs)
        (some (sk, pk))).2) :
    let cl := run (ClientCall.apply P) (newClient sid user send buf) cs
    let sv := run (ServerCall.apply P) (fresh sid' cbs buf') ss
    (Function.Injective fun x : Key × Name × Key => signedBytes x.1 x.2.1.val x.2.2) ∧
    (P.Apart (signedBytes sid cl.user pk) (signedBytes sid' sv.user pk) → ∀ env, sv.state ≠ .ok →
      (ncAuthFeed P env sv msg).2.1.state = .ok → sid = sid' ∧ cl.user = sv.user) ∧
    (sid = sid' → Greeted P (newClient sid user send buf) (fresh sid' cbs buf') cs ss →
      P.eddsaCheck (bytesAt 64 msg 33) (bytesAt 32 msg 1)
        (ncAuthSignedDigest P sv.sid sv.user (bytesAt 32 msg 1)).val = true ∧
      ∀ env, sv.state = .pending → sv.avail &&& mPubkey ≠ 0 →
        .checkSig (ncAuthSignedDigest P sv.sid sv.user pk) pk true ∈ (ncAuthFeed P env sv msg).2.2 ∧
        (cbs.checkKey = true → env.checkKey sv.user pk = true →
          (ncAuthFeed P env sv msg).2.1.state = .ok)) := by
  intro cl sv
  have hkept : Kept (newClient sid user send buf) cl := kept_run rfl cs
  have hserving : Serving sv := serving_run (serving_fresh sid' cbs buf') hss
  obtain ⟨hsv, hcbs, -⟩ := run_frame (P := P) (serving_fresh sid' cbs buf') hss
  have hcl : cl.sid = sid := hkept.sid
  have hu : cl.user.val.length ≤ ncAuthMaxUser := by
    rw [hkept.user]
    exact List.length_take_le ncAuthMaxUser user.val
  obtain rfl := supplyKey_emits hmsg
  rw [pubkeyMsg_key, pubkeyMsg_sig]
  refine ⟨signedBytes_injective, fun hapart env hne hok => ?_, fun hsid hgreet => ?_⟩
  · obtain ⟨hg, hsig⟩ := pubkey_ok hserving.server hne rfl hok
    rw [pubkeyMsg_key, pubkeyMsg_sig] at hsig
    have hd := hforge _ _ hsig
    rw [ncAuthSignedDigest, ncAuthSignedDigest, hsv] at hd
    have hpast : Past P (fresh sid' cbs buf') ss sv := past_run hss
    have hu' : sv.user.val.length ≤ ncAuthMaxUser := named_length hss (hpast.named hg)
    have hx := @signedBytes_injective (sid, ⟨cl.user, hu⟩, pk) (sid', ⟨sv.user, hu'⟩, pk)
      (hapart (hcl ▸ hd))
    simp only [Prod.mk.injEq, Subtype.mk.injEq, and_true] at hx
    exact hx
  · obtain ⟨hg, huser⟩ := hgreet.user rfl (serving_fresh sid' cbs buf') hss
    have hdigest : ncAuthSignedDigest P sv.sid sv.user pk = ncAuthSignedDigest P cl.sid cl.user pk := by
      rw [hsv, hcl, hsid, hkept.user]
      exact congrArg (fun u => ncAuthSignedDigest P sid' u pk) huser
    have hsig := hkeys (ncAuthSignedDigest P cl.sid cl.user pk)
    rw [hdigest]
    refine ⟨hsig, fun env hp hav => ?_⟩
    rw [feed_pubkey hserving.server hp hg, ← hdigest]
    have h := @serverPubkey_checks P env sv pk _ hav (hdigest ▸ hsig)
    rw [hcbs] at h
    exact h

/-! ## A key pair -/

/-- The key pair of the seed `03 03 …`. -/
def bobPk : Key := .ofNat 32 0xca4468bd77109553b05ab34a9a8a47bd8bf497e9751e38748b8d35fbe67c2381

def bobSk : Bytes 64 := ⟨List.replicate 32 3 ++ bobPk.val, by decide⟩

def bob : CStr := ⟨chars ['b', 'o', 'b'], zero_notMem_bob⟩

/-- The digest for `bob` in the session of zeros. -/
def bobDigest : Key := .ofNat 32 0xe2f3cdd7eddc8e380b3b4f1582091c7a9cc31c6234797d5d67cc84553c4a3bf9

/-- The two halves of its signature. -/
def bobR : Key := .ofNat 32 0x934295f9cfe87e346e56760460377b699c30bbbdbe877160ea0dc54cb10ce7ce

def bobS : Key := .ofNat 32 0x2ca5e051624c45112cca8f1b6708896e88e861cbce79815e641302bc724d6d0a

def bobSig : Bytes 64 := ⟨bobR.val ++ bobS.val, by rw [List.length_append, bobR.property, bobS.property]⟩

/-- A digest twice. -/
def twice (d : Key) : Bytes 64 := ⟨d.val ++ d.val, by rw [List.length_append, d.property]⟩

/-- Monocypher on one digest, and a stand-in on the others. -/
def bobMonocypher : Monocypher where
  x25519 := sampleMonocypher.x25519
  x25519PublicKey := sampleMonocypher.x25519PublicKey
  blake2b t := if t = signedBytes (.zero 32) bob bobPk then bobDigest else .zero 32
  aeadLock := sampleMonocypher.aeadLock
  aeadUnlock := sampleMonocypher.aeadUnlock
  eddsaSign sk m := if sk = bobSk ∧ m = bobDigest.val then bobSig else twice (bytesAt 32 m 0)
  eddsaCheck sig pk m :=
    if m = bobDigest.val then sig = bobSig ∧ pk = bobPk else sig = twice (bytesAt 32 m 0)
  length_lock := sampleMonocypher.length_lock

theorem bytesAt_key (d : Key) : bytesAt 32 d.val 0 = d := by
  have h := bytesAt_append [] d []
  rwa [List.append_nil] at h

theorem twice_inj {d d' : Key} (h : twice d = twice d') : d = d' := by
  have h1 : d.val ++ d.val = d'.val ++ d'.val := congrArg Subtype.val h
  exact Subtype.ext (List.append_inj h1 (d.property.trans d'.property.symm)).1

theorem bobSig_ne_twice (d : Key) : bobSig ≠ twice d := by
  intro h
  have h1 : bobR.val ++ bobS.val = d.val ++ d.val := congrArg Subtype.val h
  obtain ⟨h2, h3⟩ := List.append_inj h1 (bobR.property.trans d.property.symm)
  have hne : bobR.val ≠ bobS.val := by decide +kernel
  exact hne (h2.trans h3.symm)

theorem bob_keyPair : bobMonocypher.KeyPair bobSk bobPk := by
  intro d
  by_cases hd : d.val = bobDigest.val
  · simp [bobMonocypher, hd]
  · simp [bobMonocypher, hd]

theorem bob_unforgeable : bobMonocypher.Unforgeable bobSk bobPk := by
  intro d d' h
  by_cases hd : d.val = bobDigest.val
  · by_cases hd' : d'.val = bobDigest.val
    · exact Subtype.ext (hd.trans hd'.symm)
    · simp [bobMonocypher, hd, hd', bobSig_ne_twice] at h
  · by_cases hd' : d'.val = bobDigest.val
    · simp [bobMonocypher, hd, hd'] at h
      exact absurd h.symm (bobSig_ne_twice _)
    · simp [bobMonocypher, hd, hd', bytesAt_key] at h
      exact twice_inj h

/-- `bob` logs in with his key. -/
theorem signature_bound_sample :
    let cs := [ClientCall.feed [msgMethods, 1]]
    let cl := run (ClientCall.apply bobMonocypher) (newClient (.zero 32) bob true none) cs
    let env := { sampleEnv with methods := fun _ => mPubkey, checkKey := fun _ pk => pk = bobPk }
    let ss := [ServerCall.feed env bobHello]
    let sv := run (ServerCall.apply bobMonocypher) (fresh (.zero 32) sampleCallbacks none) ss
    let msg := pubkeyMsg bobPk bobSig
    .emit msg ∈ (ncAuthSupplyKey bobMonocypher cl (some (bobSk, bobPk))).2 ∧
      (ncAuthFeed bobMonocypher env sv msg).2.1.state = .ok ∧ cl.user = sv.user := by
  intro cs cl env ss sv msg
  have hmsg : .emit msg ∈ (ncAuthSupplyKey bobMonocypher cl (some (bobSk, bobPk))).2 := by
    decide +kernel
  obtain ⟨-, hsame, hgood⟩ := @signature_bound bobMonocypher bobSk bobPk bob_keyPair bob_unforgeable
    (.zero 32) (.zero 32) bob true none none sampleCallbacks cs ss (by simp [ss]) msg hmsg
  have hgreet : Greeted bobMonocypher (newClient (.zero 32) bob true none)
      (fresh (.zero 32) sampleCallbacks none) cs ss :=
    ⟨[], bobHello, [], env, [], List.nil_prefix, by decide +kernel, rfl, by decide +kernel⟩
  have hok := ((hgood rfl hgreet).2 env (by decide +kernel) (by decide +kernel)).2 rfl (by decide +kernel)
  refine ⟨hmsg, hok, ?_⟩
  have hapart : bobMonocypher.Apart (signedBytes (.zero 32) cl.user bobPk)
      (signedBytes (.zero 32) sv.user bobPk) := fun _ => by decide +kernel
  exact (hsame hapart env (by decide +kernel) hok).2

end Netchan.Auth
