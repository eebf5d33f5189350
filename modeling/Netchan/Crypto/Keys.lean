import Netchan.Crypto.Core
import Netchan.Lib.Run

/-!
# Session keys

`Step` is a call on one session, `session_cases` says what a run of calls leaves of it: the session
as `nc_crypto_init` made it, one with keys, or a dead one, with the calls of `verify_peer` and of
the key derivation that led there. From it:

* `keys_set_once`: keys are set at most once, and a refused peer gets nothing;
* `session_keys_agree`: two sessions that take each other's HELLO first hold the same session id
  and matching keys.
-/

namespace Netchan.Crypto

open Lib

/-! ## Calls -/

inductive Step
  | send (plain : List UInt8) (cap : Nat)
  | recv (answer : Option Key → Bool) (pkt : List UInt8) (cap : Nat)

/-- A datagram that is well formed as a HELLO. -/
def IsHello (pkt : List UInt8) : Prop := byte pkt 0 = ncCryptoHello ∧ pkt.length = ncCryptoHelloLen

instance (pkt : List UInt8) : Decidable (IsHello pkt) := inferInstanceAs (Decidable (_ ∧ _))

/-- The call gives a HELLO to `nc_crypto_open`. -/
def Step.Greets : Step → Prop
  | .send _ _ => False
  | .recv _ pkt _ => IsHello pkt

instance : ∀ st : Step, Decidable st.Greets
  | .send _ _ => .isFalse id
  | .recv _ pkt _ => inferInstanceAs (Decidable (IsHello pkt))

def Act.isVerify : Act → Bool
  | .verify _ _ => true
  | .derive _ => false

section
variable (P : Monocypher)

/-- What a call returns, `none` for `NC_CRYPTO_ERR`. -/
def Step.out (c : Session) : Step → Option (List UInt8)
  | .send plain cap => (ncCryptoSeal P c plain cap).1
  | .recv answer pkt cap => (ncCryptoOpen P answer c pkt cap).1

/-- The session after a call. -/
def Step.apply (c : Session) : Step → Session
  | .send plain cap => (ncCryptoSeal P c plain cap).2
  | .recv answer pkt cap => (ncCryptoOpen P answer c pkt cap).2.1

/-- The calls that a call makes. -/
def Step.acts (c : Session) : Step → List Act
  | .send _ _ => []
  | .recv answer pkt cap => (ncCryptoOpen P answer c pkt cap).2.2

/-- The calls that a run of calls makes. -/
def runActs : Session → List Step → List Act
  | _, [] => []
  | c, st :: sts => st.acts P c ++ runActs (st.apply P c) sts

variable {P} {c : Session}

theorem runActs_append (sts : List Step) : ∀ (c : Session) (sts' : List Step),
    runActs P c (sts ++ sts') = runActs P c sts ++ runActs P (run (Step.apply P) c sts) sts' := by
  induction sts with
  | nil =>
    intro c sts'
    rfl
  | cons st sts ih =>
    intro c sts'
    rw [List.cons_append, runActs, runActs, run_cons, ih, List.append_assoc]

/-! ## One call -/

theorem replay_frame {counter : UInt64} {c' : Session} (h : replayCheckAndUpdate c counter = some c') :
    ∃ rxWindow rxMax, c' = { c with rxWindow, rxMax } := by
  unfold replayCheckAndUpdate at h
  split at h
  · cases h
  split at h
  · cases h
    exact ⟨_, _, rfl⟩
  dsimp only at h
  split at h
  · cases h
  split at h
  · cases h
  · cases h
    exact ⟨_, _, rfl⟩

/-- **A call that gets no HELLO before there are keys**: only the counters move, and no callback is
made. -/
theorem step_frame {st : Step} (h : st.Greets → c.haveKey = true ∨ c.failed = true) :
    (∃ txCounter rxWindow rxMax, st.apply P c = { c with txCounter, rxWindow, rxMax }) ∧
      st.acts P c = [] := by
  cases st with
  | send plain cap =>
    refine ⟨?_, rfl⟩
    simp only [Step.apply, ncCryptoSeal]
    split
    · exact ⟨_, _, _, rfl⟩
    split
    · exact ⟨_, _, _, rfl⟩
    split
    · exact ⟨_, _, _, rfl⟩
    · exact ⟨_, _, _, rfl⟩
  | recv answer pkt cap =>
    simp only [Step.apply, Step.acts, ncCryptoOpen]
    split
    · exact ⟨⟨_, _, _, rfl⟩, rfl⟩
    rename_i hf
    split
    · rename_i h0
      split
      · exact ⟨⟨_, _, _, rfl⟩, rfl⟩
      rename_i hlen
      split
      · rename_i hk
        rcases h ⟨h0, not_not.1 hlen⟩ with hk' | hf'
        · rw [hk'] at hk
          cases hk
        · exact absurd (.inr hf') hf
      · exact ⟨⟨_, _, _, rfl⟩, rfl⟩
    split
    · split
      · exact ⟨⟨_, _, _, rfl⟩, rfl⟩
      split
      · exact ⟨⟨_, _, _, rfl⟩, rfl⟩
      split
      · exact ⟨⟨_, _, _, rfl⟩, rfl⟩
      split
      · exact ⟨⟨_, _, _, rfl⟩, rfl⟩
      · rename_i c' hc'
        obtain ⟨w, m, rfl⟩ := replay_frame hc'
        exact ⟨⟨_, _, _, rfl⟩, rfl⟩
    · exact ⟨⟨_, _, _, rfl⟩, rfl⟩

/-- The calls of a HELLO that leads to keys. -/
def Session.accepted (c : Session) (dhEe : Key) : List Act :=
  (if c.verifyPeer then [.verify c.shown true] else []) ++ [.derive dhEe]

/-- `verify_peer` is called at most once, and never after a derivation. -/
def AskedOnce (acts : List Act) : Prop :=
  acts.countP Act.isVerify ≤ 1 ∧ acts.Pairwise fun a b => a.isVerify = false → b.isVerify = false

theorem askedOnce_accepted (c : Session) (dhEe : Key) : AskedOnce (c.accepted dhEe) := by
  unfold AskedOnce Session.accepted
  split
  · simp [List.countP_cons, Act.isVerify]
  · simp [Act.isVerify]

/-- The session got its keys, by the calls `acts`. -/
structure Keyed (c : Session) (acts : List Act) : Prop where
  haveKey : c.haveKey = true
  alive : c.failed = false
  acts : ∃ dhEe, acts = c.accepted dhEe ∧ dhEe ≠ .zero 32
  required : c.requirePeerStatic = true → c.peerHasStatic = true

/-- The session is dead, by the calls `acts`: nobody was asked, the application said no or the
ephemeral key was degenerate. -/
structure Dead (c : Session) (acts : List Act) : Prop where
  noKey : c.haveKey = false
  failed : c.failed = true
  acts : acts = [] ∨ (∃ pk, acts = [.verify pk false]) ∨ acts = c.accepted (.zero 32)

/-- What key derivation does to a session: it sets the keys, unless the secret is zero. -/
theorem deriveSession_cases (c : Session) (peerEph : Key) :
    (∃ dhEe sid txKey rxKey, dhEe ≠ .zero 32 ∧
        deriveSession P c peerEph = (dhEe, some { c with sid, txKey, rxKey, haveKey := true })) ∨
      deriveSession P c peerEph = (.zero 32, none) := by
  unfold deriveSession
  by_cases h : P.x25519 c.ephSk peerEph = .zero 32
  · exact .inr (by rw [if_pos h, h])
  · rw [if_neg h]
    exact .inl ⟨_, _, _, _, h, rfl⟩

/-- **A first HELLO** gives the session its keys or kills it. -/
theorem judged_cases (answer : Option Key → Bool) (peerEph : Key) (hk : c.haveKey = false)
    (hf : c.failed = false) :
    Keyed (judged P answer c peerEph).1 (judged P answer c peerEph).2 ∨
      Dead (judged P answer c peerEph).1 (judged P answer c peerEph).2 := by
  unfold judged
  split
  · exact .inr ⟨hk, rfl, .inl rfl⟩
  rename_i hreq
  have hreq' : c.requirePeerStatic = true → c.peerHasStatic = true := by
    intro hr
    simpa [hr] using hreq
  dsimp only
  by_cases hv : (c.verifyPeer && !answer c.shown) = true
  · rw [if_pos hv]
    simp only [Bool.and_eq_true, Bool.not_eq_true'] at hv
    refine .inr ⟨hk, rfl, .inr (.inl ⟨c.shown, ?_⟩)⟩
    rw [hv.1, hv.2]
    rfl
  rw [if_neg hv]
  have hasked : (if c.verifyPeer then [Act.verify c.shown (answer c.shown)] else []) =
      if c.verifyPeer then [.verify c.shown true] else [] := by
    cases hvp : c.verifyPeer with
    | false => rfl
    | true =>
      rw [hvp] at hv
      have : answer c.shown = true := by simpa using hv
      rw [this]
  rw [hasked]
  rcases deriveSession_cases (P := P) c peerEph with ⟨dhEe, sid, tx, rx, hne, he⟩ | he
  · rw [he]
    exact .inl ⟨rfl, hf, ⟨dhEe, rfl, hne⟩, hreq'⟩
  · rw [he]
    exact .inr ⟨hk, rfl, .inr (.inr rfl)⟩

/-! ## Runs -/

/-- Without keys only a HELLO does something. -/
theorem step_idle {st : Step} (hk : c.haveKey = false) (hst : ¬ st.Greets) :
    st.apply P c = c ∧ st.acts P c = [] := by
  cases st with
  | send plain cap => exact ⟨by simp [Step.apply, ncCryptoSeal, hk], rfl⟩
  | recv answer pkt cap =>
    simp only [Step.apply, Step.acts, ncCryptoOpen]
    split
    · exact ⟨rfl, rfl⟩
    split
    · rename_i h0
      split
      · exact ⟨rfl, rfl⟩
      · rename_i hlen
        exact absurd ⟨h0, not_not.1 hlen⟩ hst
    split
    · rw [if_pos (.inl (by rw [hk]; rfl))]
      exact ⟨rfl, rfl⟩
    · exact ⟨rfl, rfl⟩

theorem step_hello {answer : Option Key → Bool} {pkt : List UInt8} {cap : Nat}
    (hk : c.haveKey = false) (hf : c.failed = false) (hp : IsHello pkt) :
    ((Step.recv answer pkt cap).apply P c, (Step.recv answer pkt cap).acts P c) =
      consumeHello P answer c (pkt.drop 1) := by
  have hlen : ¬ (pkt.length < 1 ∨ c.failed = true) := by
    rw [hp.2, hf]
    simp
  simp only [Step.apply, Step.acts, ncCryptoOpen]
  rw [if_neg hlen, if_pos hp.1, if_neg (not_not.2 hp.2), if_pos (by rw [hk]; rfl)]

theorem Keyed.step {acts : List Act} (h : Keyed c acts) (st : Step) :
    Keyed (st.apply P c) (acts ++ st.acts P c) := by
  obtain ⟨⟨t, w, m, he⟩, ha⟩ := @step_frame P c st fun _ => .inl h.haveKey
  rw [he, ha, List.append_nil]
  exact ⟨h.haveKey, h.alive, h.acts, h.required⟩

theorem Dead.step {acts : List Act} (h : Dead c acts) (st : Step) :
    st.apply P c = c ∧ st.acts P c = [] ∧ st.out P c = none := by
  cases st with
  | send plain cap => simp [Step.apply, Step.acts, Step.out, ncCryptoSeal, h.noKey]
  | recv answer pkt cap => simp [Step.apply, Step.acts, Step.out, ncCryptoOpen, h.failed]

theorem Dead.askedOnce {acts : List Act} (h : Dead c acts) : AskedOnce acts := by
  rcases h.acts with rfl | ⟨pk, rfl⟩ | rfl
  · exact ⟨by simp, by simp⟩
  · exact ⟨by simp [List.countP_cons, Act.isVerify], by simp⟩
  · exact askedOnce_accepted ..

/-- What a run leaves of a session. -/
def Outcome (c0 c : Session) (acts : List Act) : Prop :=
  (c = c0 ∧ acts = []) ∨ Keyed c acts ∨ Dead c acts

theorem outcome_step {c0 : Session} {acts : List Act} (hk : c0.haveKey = false)
    (hf : c0.failed = false) (h : Outcome c0 c acts) (st : Step) :
    Outcome c0 (st.apply P c) (acts ++ st.acts P c) := by
  rcases h with ⟨rfl, rfl⟩ | h | h
  · by_cases hst : st.Greets
    · cases st with
      | send plain cap => exact hst.elim
      | recv answer pkt cap =>
        have he := @step_hello P c answer pkt cap hk hf hst
        obtain ⟨h1, h2⟩ := Prod.ext_iff.1 he
        have hc := judged_cases (P := P) (c := c.presented (bytesAt 32 (pkt.drop 1) 32)) answer
          (bytesAt 32 (pkt.drop 1) 0) hk hf
        exact .inr (by rwa [List.nil_append, show (Step.recv answer pkt cap).apply P c = _ from h1,
          show (Step.recv answer pkt cap).acts P c = _ from h2])
    · obtain ⟨h1, h2⟩ := step_idle (P := P) hk hst
      rw [h1, h2]
      exact .inl ⟨rfl, rfl⟩
  · exact .inr (.inl (h.step st))
  · obtain ⟨h1, h2, -⟩ := h.step (P := P) st
    rw [h1, h2, List.append_nil]
    exact .inr (.inr h)

/-- **What a run of calls leaves of a session**: the session as it was, one with keys or a dead
one. -/
theorem session_cases {c0 : Session} (hk : c0.haveKey = false) (hf : c0.failed = false)
    (sts : List Step) : Outcome c0 (run (Step.apply P) c0 sts) (runActs P c0 sts) := by
  induction sts using List.reverseRecOn with
  | nil => exact .inl ⟨rfl, rfl⟩
  | append_singleton sts st ih =>
    rw [run_concat, runActs_append, runActs, runActs, List.append_nil]
    exact outcome_step hk hf ih st

/-- What a handshake leaves: the keys, the session id and the peer's identity. -/
def Session.agreed (c : Session) : Key × Key × Key × Bool × Key :=
  (c.txKey, c.rxKey, c.sid, c.peerHasStatic, c.peerStaticPk)

theorem agreed_ext {c d : Session} (h : d.agreed = c.agreed) :
    d.txKey = c.txKey ∧ d.rxKey = c.rxKey ∧ d.sid = c.sid ∧ d.peerHasStatic = c.peerHasStatic ∧
      d.peerStaticPk = c.peerStaticPk := by
  simpa [Session.agreed] using h

theorem Keyed.run {acts : List Act} (sts : List Step) : ∀ {c : Session}, Keyed c acts →
    Keyed (run (Step.apply P) c sts) acts ∧ (run (Step.apply P) c sts).agreed = c.agreed := by
  induction sts with
  | nil =>
    intro c h
    exact ⟨h, rfl⟩
  | cons st sts ih =>
    intro c h
    obtain ⟨⟨t, w, m, he⟩, ha⟩ := @step_frame P c st fun _ => .inl h.haveKey
    have h' := h.step (P := P) st
    rw [ha, List.append_nil] at h'
    obtain ⟨h1, h2⟩ := ih h'
    refine ⟨h1, h2.trans ?_⟩
    rw [he]
    rfl

theorem Dead.run {acts : List Act} (h : Dead c acts) (sts : List Step) :
    run (Step.apply P) c sts = c := by
  induction sts with
  | nil => rfl
  | cons st sts ih => rw [run_cons, (h.step st).1, ih]

/-! ## What `nc_crypto_init` fixes -/

/-- The part of a session that `nc_crypto_init` sets for good. -/
structure Fixed where
  role : Role
  ephSk : Key
  ephPk : Key
  haveStatic : Bool
  staticSk : Key
  staticPk : Key
  psk : Key
  requirePeerStatic : Bool
  verifyPeer : Bool

def Session.fixed (c : Session) : Fixed :=
  ⟨c.role, c.ephSk, c.ephPk, c.haveStatic, c.staticSk, c.staticPk, c.psk, c.requirePeerStatic,
    c.verifyPeer⟩

theorem judged_fixed (answer : Option Key → Bool) (c : Session) (peerEph : Key) :
    (judged P answer c peerEph).1.fixed = c.fixed := by
  unfold judged
  split
  · rfl
  dsimp only
  split
  · rfl
  rcases deriveSession_cases (P := P) c peerEph with ⟨dhEe, sid, tx, rx, -, he⟩ | he
  · rw [he]
    rfl
  · rw [he]
    rfl

theorem step_fixed (c : Session) (st : Step) : (st.apply P c).fixed = c.fixed := by
  by_cases h : st.Greets ∧ c.haveKey = false ∧ c.failed = false
  · obtain ⟨hst, hk, hf⟩ := h
    cases st with
    | send plain cap => exact hst.elim
    | recv answer pkt cap =>
      have he := Prod.ext_iff.1 (@step_hello P c answer pkt cap hk hf hst)
      rw [show (Step.recv answer pkt cap).apply P c = _ from he.1]
      exact judged_fixed ..
  · obtain ⟨⟨t, w, m, he⟩, -⟩ := @step_frame P c st fun hst => by
      cases hk : c.haveKey with
      | true => exact .inl rfl
      | false =>
        cases hf : c.failed with
        | true => exact .inr rfl
        | false => exact absurd ⟨hst, hk, hf⟩ h
    rw [he]
    rfl

theorem run_fixed (c : Session) (sts : List Step) : (run (Step.apply P) c sts).fixed = c.fixed :=
  run_invariant (I := fun d => d.fixed = c.fixed) (A := fun _ _ => True)
    (fun d st hd _ => (step_fixed d st).trans hd) rfl (along_true sts)

theorem ncCryptoInit_spec {role : Role} {cfg : Cfg} {random : Option Key} {c : Session}
    (h : ncCryptoInit P role cfg random = some c) :
    ∃ ephSk, c =
      { role, ephSk, ephPk := P.x25519PublicKey ephSk, psk := cfg.psk.getD (.zero 32)
        haveStatic := cfg.staticSk.isSome, staticSk := cfg.staticSk.getD (.zero 32)
        staticPk := (cfg.staticSk.map P.x25519PublicKey).getD (.zero 32)
        requirePeerStatic := cfg.requirePeerStatic, verifyPeer := cfg.verifyPeer } := by
  obtain ⟨ephSk, -, h⟩ := Option.bind_eq_some_iff.1 h
  refine ⟨ephSk, ?_⟩
  cases hs : cfg.staticSk with
  | none =>
    rw [hs] at h
    exact (Option.some.inj h).symm
  | some sk =>
    rw [hs] at h
    exact (Option.some.inj h).symm

end

/-! ## A session -/

/-- The secret keys `01 01 ..` and `02 02 ..`. -/
def sampleSk (r : Role) : Key :=
  ⟨List.replicate 32 (match r with | .initiator => 1 | .responder => 2), List.length_replicate⟩

def samplePk : Role → Key
  | .initiator => .ofNat 32 0xa4e09292b651c278b9772c569f5fa9bb13d906b46ab68c9df9dc2b4409f8a209
  | .responder => .ofNat 32 0xce8d3ad1ccb633ec7b70c17814a5c76ecd029685050d344745ba05870e587d59

def sampleDh : Key := .ofNat 32 0x2ed76ab549b1e73c031eb49c9448f0798aea81b698279a0c3dc3e49fbfc4b953

/-- The transcript of the two, without identity keys. -/
def sampleTranscript (label : UInt8) : List UInt8 :=
  sampleDh.val ++ List.replicate 64 0 ++ (samplePk .initiator).val ++ (samplePk .responder).val ++
    List.replicate 96 0 ++ [label]

/-- The key from the initiator to the responder. -/
def sampleKey : Key := .ofNat 32 0x6f720ee6fa4f31adb71266354020a137c3c072aa69a444da3e8983926e018f68

/-- The packet `hi` under that key, with counter 1. -/
def samplePacket : Mac × List UInt8 := (.ofNat 16 0xd2a056aafaa5023e6a18e5b16d9b9275, [0x9f, 0x88])

/-- What monocypher computes for this session. Elsewhere these are not the functions of monocypher,
but they keep the laws that are used. -/
def sampleMonocypher : Monocypher where
  x25519 sk pk :=
    if sk = sampleSk .initiator ∧ pk = samplePk .responder ∨
        sk = sampleSk .responder ∧ pk = samplePk .initiator then sampleDh else .zero 32
  x25519PublicKey sk :=
    if sk = sampleSk .initiator then samplePk .initiator
    else if sk = sampleSk .responder then samplePk .responder else .ofNat 32 9
  blake2b t :=
    if t = sampleTranscript labelSid then
      .ofNat 32 0xd0037241d55d07c95b086897620fc298c5f4aa5cf27dbd71bb3f125a3b1e1789
    else if t = sampleTranscript labelI2R then sampleKey
    else if t = sampleTranscript labelR2I then
      .ofNat 32 0xb92abb7e15dfec4d23cd51f24fe371a22355129f0497cd6637e6c29795c132d6
    else .zero 32
  aeadLock k n p :=
    if k = sampleKey ∧ n = nonceOf 1 ∧ p = [0x68, 0x69] then samplePacket else (.zero 16, p)
  aeadUnlock k n m ct :=
    if k = sampleKey ∧ n = nonceOf 1 ∧ (m, ct) = samplePacket then some [0x68, 0x69]
    else if m = .zero 16 then some ct else none
  eddsaSign _ _ := .zero 64
  eddsaCheck _ _ _ := false
  length_lock k n p := by
    split
    · rename_i h
      rw [h.2.2]
      rfl
    · rfl

/-- The session of one end, and its HELLO. -/
def sampleSession (r : Role) : Session := { role := r, ephSk := sampleSk r, ephPk := samplePk r }

def sampleHello (r : Role) : List UInt8 := ncCryptoHello :: ((samplePk r).val ++ List.replicate 32 0)

/-- **Keys are set at most once and a refused peer gets nothing**: of any run of calls after
`nc_crypto_init`, and any run after that. -/
theorem keys_set_once {P : Monocypher} {role : Role} {cfg : Cfg} {random : Option Key} {c0 : Session}
    (h0 : ncCryptoInit P role cfg random = some c0) (sts later : List Step) :
    let c := run (Step.apply P) c0 sts
    let d := run (Step.apply P) c0 (sts ++ later)
    let acts := runActs P c0 sts
    ¬ (c.haveKey = true ∧ c.failed = true) ∧
    (c.haveKey = true → d.haveKey = true ∧ d.failed = false ∧ d.txKey = c.txKey ∧
      d.rxKey = c.rxKey ∧ d.sid = c.sid ∧ d.peerHasStatic = c.peerHasStatic ∧
      d.peerStaticPk = c.peerStaticPk) ∧
    (c.failed = true → d.haveKey = false ∧ d.failed = true ∧ ∀ st : Step, st.out P d = none) ∧
    acts.countP Act.isVerify ≤ 1 ∧
    acts.Pairwise (fun a b => a.isVerify = false → b.isVerify = false) ∧
    (c.haveKey = true →
      (cfg.verifyPeer = true → Act.verify c.shown true ∈ acts) ∧
      (cfg.requirePeerStatic = true → c.peerHasStatic = true) ∧
      ∃ dhEe, Act.derive dhEe ∈ acts ∧ dhEe ≠ .zero 32) := by
  intro c d acts
  obtain ⟨ephSk, hc0⟩ := ncCryptoInit_spec h0
  have hk : c0.haveKey = false := by rw [hc0]
  have hf : c0.failed = false := by rw [hc0]
  have hfix : c.fixed = c0.fixed := run_fixed c0 sts
  have hv : c.verifyPeer = cfg.verifyPeer := (congrArg Fixed.verifyPeer hfix).trans (by rw [hc0]; rfl)
  have hr : c.requirePeerStatic = cfg.requirePeerStatic :=
    (congrArg Fixed.requirePeerStatic hfix).trans (by rw [hc0]; rfl)
  have hd : d = run (Step.apply P) c later := run_append ..
  rcases session_cases (P := P) hk hf sts with ⟨hc, hacts⟩ | h | h
  · have hck : c.haveKey = false := (congrArg Session.haveKey hc).trans hk
    have hcf : c.failed = false := (congrArg Session.failed hc).trans hf
    have ha : acts = [] := hacts
    rw [hck, hcf, ha]
    refine ⟨nofun, nofun, nofun, by simp, by simp, nofun⟩
  · have h : Keyed c acts := h
    obtain ⟨hd', hag⟩ := h.run (P := P) later
    rw [← hd] at hd' hag
    obtain ⟨h1, h2, h3, h4, h5⟩ := agreed_ext hag
    obtain ⟨dhEe, ha, hne⟩ := h.acts
    have honce : AskedOnce acts := by
      rw [ha]
      exact askedOnce_accepted c dhEe
    refine ⟨fun hb => ?_, fun _ => ⟨hd'.haveKey, hd'.alive, h1, h2, h3, h4, h5⟩, fun hcf => ?_,
      honce.1, honce.2, fun _ => ⟨fun hvp => ?_, fun hrp => h.required (hr.trans hrp),
        dhEe, by simp [ha, Session.accepted], hne⟩⟩
    · rw [h.alive] at hb
      cases hb.2
    · rw [h.alive] at hcf
      cases hcf
    · simp [ha, Session.accepted, hv, hvp]
  · have h : Dead c acts := h
    have hdc : d = c := hd.trans (h.run later)
    refine ⟨fun hb => ?_, fun hck => ?_, fun _ => ?_, h.askedOnce.1, h.askedOnce.2, fun hck => ?_⟩
    · rw [h.noKey] at hb
      cases hb.1
    · rw [h.noKey] at hck
      cases hck
    · rw [hdc]
      exact ⟨h.noKey, h.failed, fun st => (h.step st).2.2⟩
    · rw [h.noKey] at hck
      cases hck

theorem keys_set_once_sample :
    let c0 := sampleSession .initiator
    let sts := [Step.recv (fun _ => true) (sampleHello .responder) 0]
    (run (Step.apply sampleMonocypher) c0 sts).haveKey = true ∧
      (run (Step.apply sampleMonocypher) c0 (sts ++ sts)).txKey =
        (run (Step.apply sampleMonocypher) c0 sts).txKey := by
  intro c0 sts
  have hk : (run (Step.apply sampleMonocypher) c0 sts).haveKey = true := by decide +kernel
  have h := @keys_set_once sampleMonocypher .initiator { ephSkSeed := some (sampleSk .initiator) } none
    c0 (by decide +kernel) sts sts
  exact ⟨hk, (h.2.1 hk).2.2.1⟩

/-! ## The two ends of a handshake -/

/-- The identity key in a HELLO. -/
def Session.identity (c : Session) : Key := if c.haveStatic then c.staticPk else .zero 32

/-- A HELLO is well formed and carries the keys of its sender. -/
theorem handshakePacket_spec {c : Session} {cap : Nat} {pkt : List UInt8}
    (h : ncCryptoHandshakePacket c cap = some pkt) :
    IsHello pkt ∧ bytesAt 32 (pkt.drop 1) 0 = c.ephPk ∧ bytesAt 32 (pkt.drop 1) 32 = c.identity := by
  unfold ncCryptoHandshakePacket at h
  split at h
  · cases h
  obtain rfl := Option.some.inj h
  have h1 := bytesAt_append [] c.ephPk c.identity.val
  have h2 := bytesAt_append c.ephPk.val c.identity []
  rw [c.ephPk.property, List.append_nil] at h2
  refine ⟨⟨rfl, ?_⟩, h1, h2⟩
  rw [List.length_cons, List.length_append, c.ephPk.property, (_ : Key).property]

section
variable {P : Monocypher}

/-- Diffie-Hellman: either end computes the same secret. -/
def Monocypher.Commutes (P : Monocypher) : Prop :=
  ∀ a b, P.x25519 a (P.x25519PublicKey b) = P.x25519 b (P.x25519PublicKey a)

/-- No public key is all zeros. -/
def Monocypher.PublicNonzero (P : Monocypher) : Prop := ∀ a, P.x25519PublicKey a ≠ .zero 32

/-- The keys of a session belong together. -/
structure Paired (P : Monocypher) (c : Session) : Prop where
  eph : c.ephPk = P.x25519PublicKey c.ephSk
  static : c.haveStatic = true → c.staticPk = P.x25519PublicKey c.staticSk
  absent : c.haveStatic = false → c.staticPk = .zero 32

/-- The sort of the ephemeral keys does not depend on whose they are. -/
theorem sort_comm (a b : Key) :
    (if memcmpPos a b then (b, a) else (a, b)) = if memcmpPos b a then (a, b) else (b, a) := by
  unfold memcmpPos
  by_cases h1 : a.val < b.val
  · simp [h1, List.lt_asymm h1]
  by_cases h2 : b.val < a.val
  · simp [h1, h2]
  · rw [Subtype.ext (List.le_antisymm h2 h1)]

/-- **Both ends derive the same**: `a` and `b` know each other's keys. -/
theorem deriveSession_agree (hdh : P.Commutes) {a b a' b' : Session} {dh dh' : Key}
    (hra : a.role = .initiator) (hrb : b.role = .responder) (ha : Paired P a) (hb : Paired P b)
    (hpsk : a.psk = b.psk) (hpa : a.peerHasStatic = b.haveStatic)
    (hsa : a.peerStaticPk = b.staticPk) (hpb : b.peerHasStatic = a.haveStatic)
    (hsb : b.peerStaticPk = a.staticPk) (hda : deriveSession P a b.ephPk = (dh, some a'))
    (hdb : deriveSession P b a.ephPk = (dh', some b')) :
    a'.sid = b'.sid ∧ a'.txKey = b'.rxKey ∧ a'.rxKey = b'.txKey := by
  have hee : P.x25519 a.ephSk b.ephPk = P.x25519 b.ephSk a.ephPk := by
    rw [ha.eph, hb.eph]
    exact hdh _ _
  have his : (if b.haveStatic then P.x25519 a.ephSk b.staticPk else .zero 32) =
      if b.haveStatic then P.x25519 b.staticSk a.ephPk else .zero 32 := by
    cases hst : b.haveStatic with
    | false => rfl
    | true =>
      rw [hb.static hst, ha.eph]
      exact hdh _ _
  have hsi : (if a.haveStatic then P.x25519 a.staticSk b.ephPk else .zero 32) =
      if a.haveStatic then P.x25519 b.ephSk a.staticPk else .zero 32 := by
    cases hst : a.haveStatic with
    | false => rfl
    | true =>
      rw [ha.static hst, hb.eph]
      exact hdh _ _
  simp only [deriveSession, hra, hpa, hsa, hee, his, hsi] at hda
  simp only [deriveSession, hrb, hpb, hsb, sort_comm b.ephPk, ← hpsk] at hdb
  split at hda
  · cases hda
  rw [if_neg ‹_›] at hdb
  obtain ⟨-, hda⟩ := Prod.mk.inj hda
  obtain ⟨-, hdb⟩ := Prod.mk.inj hdb
  rw [← Option.some.inj hda, ← Option.some.inj hdb]
  exact ⟨rfl, rfl, rfl⟩

/-- `pkt` is the first HELLO that the calls give to `nc_crypto_open`. -/
def FirstHello (sts : List Step) (pkt : List UInt8) : Prop :=
  ∃ pre answer cap post, sts = pre ++ .recv answer pkt cap :: post ∧ ∀ st ∈ pre, ¬ st.Greets

theorem run_idle {c : Session} (hk : c.haveKey = false) {sts : List Step}
    (h : ∀ st ∈ sts, ¬ st.Greets) : run (Step.apply P) c sts = c := by
  induction sts with
  | nil => rfl
  | cons st sts ih =>
    rw [run_cons, (step_idle hk (h st (.head _))).1]
    exact ih fun x hx => h x (.tail _ hx)

/-- A HELLO that does not kill the session leads to the key derivation. -/
theorem judged_alive {c : Session} {answer : Option Key → Bool} {peerEph : Key}
    (h : (judged P answer c peerEph).1.failed = false) :
    ∃ dhEe, deriveSession P c peerEph = (dhEe, some (judged P answer c peerEph).1) := by
  unfold judged at h ⊢
  split at h
  · cases h
  rename_i h1
  rw [if_neg h1]
  dsimp only at h ⊢
  split at h
  · cases h
  rename_i h2
  rw [if_neg h2]
  rcases deriveSession_cases (P := P) c peerEph with ⟨dhEe, sid, tx, rx, -, he⟩ | he
  · rw [he]
    exact ⟨dhEe, rfl⟩
  · rw [he] at h
    cases h

/-- The keys of a session are those that the first HELLO led to. -/
theorem first_hello {c0 : Session} (hk : c0.haveKey = false) (hf : c0.failed = false)
    {sts : List Step} {pkt : List UInt8} (h : FirstHello sts pkt) (hp : IsHello pkt)
    (hok : (run (Step.apply P) c0 sts).failed = false) :
    ∃ dhEe c1, deriveSession P (c0.presented (bytesAt 32 (pkt.drop 1) 32)) (bytesAt 32 (pkt.drop 1) 0) =
        (dhEe, some c1) ∧
      (run (Step.apply P) c0 sts).haveKey = true ∧ (run (Step.apply P) c0 sts).agreed = c1.agreed := by
  obtain ⟨pre, answer, cap, post, rfl, hpre⟩ := h
  have hrun : run (Step.apply P) c0 (pre ++ .recv answer pkt cap :: post) =
      run (Step.apply P) (consumeHello P answer c0 (pkt.drop 1)).1 post := by
    have he := Prod.ext_iff.1 (@step_hello P c0 answer pkt cap hk hf hp)
    rw [run_append, run_idle hk hpre, run_cons, show (Step.recv answer pkt cap).apply P c0 = _ from he.1]
  rw [hrun] at hok ⊢
  rcases judged_cases (P := P) (c := c0.presented (bytesAt 32 (pkt.drop 1) 32)) answer
      (bytesAt 32 (pkt.drop 1) 0) hk hf with hkey | hdead
  · obtain ⟨dhEe, he⟩ := judged_alive hkey.alive
    obtain ⟨h1, h2⟩ := hkey.run (P := P) post
    exact ⟨dhEe, _, he, h1.haveKey, h2⟩
  · rw [consumeHello, hdead.run, hdead.failed] at hok
    cases hok

theorem paired_init (hpub : P.PublicNonzero) {role : Role} {cfg : Cfg} {random : Option Key}
    {c : Session} (h : ncCryptoInit P role cfg random = some c) :
    Paired P c ∧ c.identity = c.staticPk ∧
      ∀ d : Session, d.peerStaticPk = .zero 32 →
        (d.presented c.identity).peerHasStatic = c.haveStatic ∧
          (d.presented c.identity).peerStaticPk = c.staticPk := by
  obtain ⟨ephSk, rfl⟩ := ncCryptoInit_spec h
  cases hs : cfg.staticSk with
  | none =>
    refine ⟨⟨rfl, nofun, fun _ => rfl⟩, rfl, fun d hd => ⟨?_, ?_⟩⟩
    · simp [Session.presented, Session.identity]
    · simpa [Session.presented, Session.identity] using hd
  | some sk =>
    have hne := hpub sk
    refine ⟨⟨rfl, fun _ => rfl, nofun⟩, rfl, fun d _ => ⟨?_, ?_⟩⟩
    · simp [Session.presented, Session.identity, hne]
    · simp [Session.presented, Session.identity, hne]

theorem handshakePacket_fixed {c d : Session} (h : c.fixed = d.fixed) (cap : Nat) :
    ncCryptoHandshakePacket c cap = ncCryptoHandshakePacket d cap := by
  have h1 : c.ephPk = d.ephPk := congrArg Fixed.ephPk h
  have h2 : c.haveStatic = d.haveStatic := congrArg Fixed.haveStatic h
  have h3 : c.staticPk = d.staticPk := congrArg Fixed.staticPk h
  unfold ncCryptoHandshakePacket
  rw [h1, h2, h3]

end

/-- **Session key agreement**: if each end takes the other's HELLO as its first and neither fails,
they hold the same session id and the keys of the two directions match. The HELLOs are sent at any
time, and any calls are made before and after. -/
theorem session_keys_agree {P : Monocypher} (hdh : P.Commutes) (hpub : P.PublicNonzero)
    {cfgA cfgB : Cfg} {randomA randomB : Option Key} {a0 b0 : Session}
    (ha : ncCryptoInit P .initiator cfgA randomA = some a0)
    (hb : ncCryptoInit P .responder cfgB randomB = some b0) (hpsk : cfgA.psk = cfgB.psk)
    {stsA stsB preA preB : List Step} {capA capB : Nat} {pktA pktB : List UInt8}
    (hpa : ncCryptoHandshakePacket (run (Step.apply P) a0 preA) capA = some pktA)
    (hpb : ncCryptoHandshakePacket (run (Step.apply P) b0 preB) capB = some pktB)
    (hfa : FirstHello stsA pktB) (hfb : FirstHello stsB pktA)
    (hoka : (run (Step.apply P) a0 stsA).failed = false)
    (hokb : (run (Step.apply P) b0 stsB).failed = false) :
    let a := run (Step.apply P) a0 stsA
    let b := run (Step.apply P) b0 stsB
    a.haveKey = true ∧ b.haveKey = true ∧ a.sid = b.sid ∧ a.txKey = b.rxKey ∧ a.rxKey = b.txKey := by
  rw [handshakePacket_fixed (run_fixed a0 preA)] at hpa
  rw [handshakePacket_fixed (run_fixed b0 preB)] at hpb
  obtain ⟨hha, hea, hia⟩ := handshakePacket_spec hpa
  obtain ⟨hhb, heb, hib⟩ := handshakePacket_spec hpb
  obtain ⟨hpaira, -, hknowa⟩ := paired_init hpub ha
  obtain ⟨hpairb, -, hknowb⟩ := paired_init hpub hb
  obtain ⟨skA, hea0⟩ := ncCryptoInit_spec ha
  obtain ⟨skB, heb0⟩ := ncCryptoInit_spec hb
  obtain ⟨dhA, a1, hda, hka, haga⟩ :=
    first_hello (by rw [hea0]) (by rw [hea0]) hfa hhb hoka
  obtain ⟨dhB, b1, hdb, hkb, hagb⟩ :=
    first_hello (by rw [heb0]) (by rw [heb0]) hfb hha hokb
  rw [hib, heb] at hda
  rw [hia, hea] at hdb
  obtain ⟨hpha, hspa⟩ := hknowb a0 (by rw [hea0])
  obtain ⟨hphb, hspb⟩ := hknowa b0 (by rw [heb0])
  have hagree := deriveSession_agree hdh (a := a0.presented b0.identity)
    (b := b0.presented a0.identity) (by rw [hea0]; rfl) (by rw [heb0]; rfl)
    ⟨hpaira.eph, hpaira.static, hpaira.absent⟩ ⟨hpairb.eph, hpairb.static, hpairb.absent⟩
    (by rw [hea0, heb0]; exact congrArg (Option.getD · _) hpsk) hpha hspa hphb hspb hda hdb
  obtain ⟨hta, hra, hsa, -⟩ := agreed_ext haga
  obtain ⟨htb, hrb, hsb, -⟩ := agreed_ext hagb
  refine ⟨hka, hkb, ?_, ?_, ?_⟩
  · rw [hsa, hsb]
    exact hagree.1
  · rw [hta, hrb]
    exact hagree.2.1
  · rw [hra, htb]
    exact hagree.2.2

theorem sample_public (r : Role) (sk : Key) :
    sampleMonocypher.x25519PublicKey sk = samplePk r ↔ sk = sampleSk r := by
  simp only [sampleMonocypher]
  constructor
  · intro h
    split at h
    · cases r with
      | initiator => assumption
      | responder => exact absurd h (by decide)
    split at h
    · cases r with
      | initiator => exact absurd h (by decide)
      | responder => assumption
    · cases r with
      | initiator => exact absurd h (by decide)
      | responder => exact absurd h (by decide)
  · rintro rfl
    cases r with
    | initiator => exact if_pos rfl
    | responder => exact (if_neg (by decide)).trans (if_pos rfl)

theorem sample_commutes : sampleMonocypher.Commutes := by
  have h (a b : Key) : sampleMonocypher.x25519 a (sampleMonocypher.x25519PublicKey b) =
      if a = sampleSk .initiator ∧ b = sampleSk .responder ∨
        a = sampleSk .responder ∧ b = sampleSk .initiator then sampleDh else .zero 32 := by
    exact if_congr (or_congr (and_congr_right fun _ => sample_public .responder b)
      (and_congr_right fun _ => sample_public .initiator b)) rfl rfl
  intro a b
  rw [h, h]
  refine if_congr ?_ rfl rfl
  constructor
  · rintro (⟨h1, h2⟩ | ⟨h1, h2⟩)
    · exact .inr ⟨h2, h1⟩
    · exact .inl ⟨h2, h1⟩
  · rintro (⟨h1, h2⟩ | ⟨h1, h2⟩)
    · exact .inr ⟨h2, h1⟩
    · exact .inl ⟨h2, h1⟩

theorem sample_publicNonzero : sampleMonocypher.PublicNonzero := by
  intro sk
  simp only [sampleMonocypher]
  split
  · decide
  split
  · decide
  · decide

theorem session_keys_agree_sample :
    let a := run (Step.apply sampleMonocypher) (sampleSession .initiator)
      [.recv (fun _ => true) (sampleHello .responder) 0]
    let b := run (Step.apply sampleMonocypher) (sampleSession .responder)
      [.recv (fun _ => true) (sampleHello .initiator) 0]
    a.haveKey = true ∧ b.haveKey = true ∧ a.sid = b.sid ∧ a.txKey = b.rxKey ∧ a.rxKey = b.txKey :=
  @session_keys_agree sampleMonocypher sample_commutes sample_publicNonzero
    { ephSkSeed := some (sampleSk .initiator) } { ephSkSeed := some (sampleSk .responder) } none none
    (sampleSession .initiator) (sampleSession .responder) (by decide +kernel) (by decide +kernel) rfl
    _ _ [] [] 65 65 (sampleHello .initiator) (sampleHello .responder) (by decide +kernel)
    (by decide +kernel) ⟨[], _, _, [], rfl, nofun⟩ ⟨[], _, _, [], rfl, nofun⟩ (by decide +kernel)
    (by decide +kernel)

end Netchan.Crypto
