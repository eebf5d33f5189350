import Netchan.Crypto.Keys
import Netchan.Crypto.Window
import Mathlib.Data.List.Nodup

/-!
# The sealed channel

Two sessions and the network between them. Who gives a datagram to `nc_crypto_open` is not
restricted: the adversary drops, copies, reorders, alters, reflects and invents datagrams. `sent`
and `opened` record the packets that were sealed and the DATA packets that were opened.

`channel_sound`: what is opened was sealed by the other end, no packet is opened twice, no nonce is
used twice under a key and a failed open changes nothing.
-/

namespace Netchan.Crypto

open Lib

/-- The peer's role. -/
def Role.other : Role → Role
  | .initiator => .responder
  | .responder => .initiator

/-- A packet that was sealed: the arguments of `crypto_aead_lock` and the datagram. -/
structure Sent where
  role : Role
  key : Key
  nonce : Nonce
  plain : List UInt8
  pkt : List UInt8
  deriving DecidableEq

/-- A DATA packet that was opened, and what came out. -/
structure Opened where
  role : Role
  pkt : List UInt8
  plain : List UInt8
  deriving DecidableEq

/-- The two ends of a channel. -/
structure Channel where
  conn : Role → Session
  sent : List Sent := []
  opened : List Opened := []

inductive Op
  | send (r : Role) (plain : List UInt8) (cap : Nat)
  | recv (r : Role) (answer : Option Key → Bool) (pkt : List UInt8) (cap : Nat)

/-- The `conn` of one role is replaced. -/
def Channel.set (w : Channel) (r : Role) (c : Session) : Channel :=
  { w with conn := fun q => if q = r then c else w.conn q }

section
variable (P : Monocypher)

/-- One call on one end. -/
def Channel.step (w : Channel) : Op → Channel
  | .send r plain cap =>
    match ncCryptoSeal P (w.conn r) plain cap with
    | (none, c) => w.set r c
    | (some pkt, c) =>
      { w.set r c with sent := w.sent ++ [⟨r, c.txKey, nonceOf c.txCounter, plain, pkt⟩] }
  | .recv r answer pkt cap =>
    match ncCryptoOpen P answer (w.conn r) pkt cap with
    | (none, c, _) => w.set r c
    | (some plain, c, _) =>
      if byte pkt 0 = ncCryptoData then
        { w.set r c with opened := w.opened ++ [⟨r, pkt, plain⟩] }
      else w.set r c

/-! ## Assumptions -/

/-- Decryption undoes encryption. -/
def Monocypher.Unlocks (P : Monocypher) : Prop :=
  ∀ k n p, P.aeadUnlock k n (P.aeadLock k n p).1 (P.aeadLock k n p).2 = some p

/-- The keys that the ends hold are the agreed ones: `K r` is the key that `r` sends with. -/
def Channel.Agreed (K : Role → Key) (w : Channel) : Prop :=
  ∀ r, (w.conn r).haveKey = true → (w.conn r).txKey = K r ∧ (w.conn r).rxKey = K r.other

/-- Nobody forges: if the datagram decrypts under the key of the end that gets it, the nonce, the mac
and the ciphertext are those of an earlier encryption under this key. -/
def Channel.NotForged (w : Channel) : Op → Prop
  | .send _ _ _ => True
  | .recv r _ pkt _ =>
    P.aeadUnlock (w.conn r).rxKey (nonceOf (rd64be pkt 1)) (bytesAt 16 pkt 9)
        (pkt.drop ncCryptoOverhead) ≠ none →
      ∃ s ∈ w.sent, s.key = (w.conn r).rxKey ∧ s.nonce = nonceOf (rd64be pkt 1) ∧
        P.aeadLock s.key s.nonce s.plain = (bytesAt 16 pkt 9, pkt.drop ncCryptoOverhead)

instance (K : Role → Key) (w : Channel) : Decidable (w.Agreed K) :=
  let D (r : Role) : Prop :=
    (w.conn r).haveKey = true → (w.conn r).txKey = K r ∧ (w.conn r).rxKey = K r.other
  decidable_of_iff (D .initiator ∧ D .responder)
    ⟨fun h r => match r with | .initiator => h.1 | .responder => h.2, fun h => ⟨h _, h _⟩⟩

instance (w : Channel) : ∀ op, Decidable (w.NotForged P op)
  | .send _ _ _ => .isTrue trivial
  | .recv _ _ _ _ => inferInstanceAs (Decidable (_ → _))

/-- A session that has neither sealed nor opened a packet. -/
def Session.Unused (c : Session) : Prop := c.txCounter = 0 ∧ c.rxMax = 0 ∧ c.rxWindow = 0

end

/-! ## Datagrams -/

theorem rd64be_wr64be (v : UInt64) (b : UInt8) (rest : List UInt8) :
    rd64be (b :: (wr64be v ++ rest)) 1 = v := by
  have h := bytesAt_append [b] (.ofNat 8 v.toNat) rest
  have hv : bytesAt 8 (b :: (wr64be v ++ rest)) 1 = .ofNat 8 v.toNat := h
  have hlt := v.toNat_lt
  rw [rd64be, hv]
  simp only [Bytes.ofNat, beVal_beBytes]
  rw [Nat.mod_eq_of_lt (by omega), UInt64.ofNat_toNat]

theorem wr64be_rd64be (p : List UInt8) (off : Nat) : wr64be (rd64be p off) = (bytesAt 8 p off).val := by
  have hlt := beVal_lt (bytesAt 8 p off).val
  have hb := beBytes_beVal (bytesAt 8 p off).val
  rw [(bytesAt 8 p off).property] at hlt hb
  rw [wr64be, rd64be, UInt64.toNat_ofNat_of_lt' (by simpa using hlt), hb]

theorem nonceOf_injective {m n : UInt64} (h : nonceOf m = nonceOf n) : m = n := by
  have h1 := congrArg Subtype.val h
  simp only [nonceOf] at h1
  have h2 := (List.append_inj h1 (by simp [wr64be])).1
  have h3 := rd64be_wr64be m 0 []
  rw [h2, rd64be_wr64be] at h3
  exact h3.symm

section
variable {P : Monocypher}

/-- A DATA packet is the one that its mac and its ciphertext were sealed into. -/
theorem eq_sealed {pkt : List UInt8} {key : Key} {plain : List UInt8}
    (h0 : byte pkt 0 = ncCryptoData) (hlen : ncCryptoOverhead ≤ pkt.length)
    (h : P.aeadLock key (nonceOf (rd64be pkt 1)) plain = (bytesAt 16 pkt 9, pkt.drop ncCryptoOverhead)) :
    sealed P key (rd64be pkt 1) plain = pkt := by
  simp only [ncCryptoOverhead] at hlen h
  cases pkt with
  | nil => simp at hlen
  | cons b rest =>
    obtain rfl : b = ncCryptoData := h0
    rw [List.length_cons] at hlen
    unfold sealed
    rw [h]
    dsimp only
    rw [wr64be_rd64be, bytesAt_eq (by simp; omega), bytesAt_eq (by simp; omega)]
    simp only [List.drop_succ_cons, List.drop_zero]
    rw [show rest.drop 24 = (rest.drop 8).drop 16 by simp, List.append_assoc, List.take_append_drop,
      List.take_append_drop]

/-! ## One call -/

/-- The counters of a session. -/
def Session.counters (c : Session) : UInt64 × UInt64 × UInt64 := (c.txCounter, c.rxMax, c.rxWindow)

theorem consumeHello_counters (answer : Option Key → Bool) (c : Session) (body : List UInt8) :
    (consumeHello P answer c body).1.counters = c.counters := by
  unfold consumeHello judged
  split
  · rfl
  dsimp only
  split
  · rfl
  rcases deriveSession_cases (P := P) (c.presented (bytesAt 32 body 32)) (bytesAt 32 body 0) with
    ⟨dhEe, sid, tx, rx, -, he⟩ | he
  · rw [he]
    rfl
  · rw [he]
    rfl

/-- **What `nc_crypto_open` does**: it opens a DATA packet that decrypts and was not seen, or it is a
HELLO, or it fails and changes nothing. -/
theorem open_cases (P : Monocypher) (answer : Option Key → Bool) (c : Session) (pkt : List UInt8)
    (cap : Nat) :
    (∃ plain c', ncCryptoOpen P answer c pkt cap = (some plain, c', []) ∧
      byte pkt 0 = ncCryptoData ∧ ncCryptoOverhead ≤ pkt.length ∧ c.haveKey = true ∧
      P.aeadUnlock c.rxKey (nonceOf (rd64be pkt 1)) (bytesAt 16 pkt 9) (pkt.drop ncCryptoOverhead) =
        some plain ∧ replayCheckAndUpdate c (rd64be pkt 1) = some c') ∨
    (∃ c' acts, ncCryptoOpen P answer c pkt cap = (some [], c', acts) ∧
      byte pkt 0 ≠ ncCryptoData ∧ c'.counters = c.counters) ∨
    ncCryptoOpen P answer c pkt cap = (none, c, []) := by
  unfold ncCryptoOpen
  split
  · exact .inr (.inr rfl)
  split
  · rename_i h0
    have h0' : byte pkt 0 ≠ ncCryptoData := by
      rw [h0]
      decide
    split
    · exact .inr (.inr rfl)
    split
    · exact .inr (.inl ⟨_, _, rfl, h0', consumeHello_counters ..⟩)
    · exact .inr (.inl ⟨_, _, rfl, h0', rfl⟩)
  split
  · rename_i h0
    split
    · exact .inr (.inr rfl)
    rename_i hkl
    split
    · exact .inr (.inr rfl)
    dsimp only
    split
    · exact .inr (.inr rfl)
    rename_i plain hun
    split
    · exact .inr (.inr rfl)
    rename_i c' hre
    refine .inl ⟨plain, c', rfl, h0, ?_, ?_, hun, hre⟩
    · exact Nat.le_of_not_lt fun hc => hkl (.inr hc)
    · cases hk : c.haveKey with
      | true => rfl
      | false => exact absurd (.inl (by rw [hk]; rfl)) hkl
  · exact .inr (.inr rfl)

/-- **What `nc_crypto_seal` does**: it seals under the next counter, or it changes nothing. -/
theorem seal_cases (P : Monocypher) (c : Session) (plain : List UInt8) (cap : Nat) :
    (c.haveKey = true ∧ c.txCounter.toNat + 1 = (c.txCounter + 1).toNat ∧
      ncCryptoSeal P c plain cap =
        (some (sealed P c.txKey (c.txCounter + 1) plain), { c with txCounter := c.txCounter + 1 })) ∨
    ncCryptoSeal P c plain cap = (none, c) := by
  unfold ncCryptoSeal
  split
  · exact .inr rfl
  rename_i hk
  split
  · exact .inr rfl
  split
  · exact .inr rfl
  rename_i hmax
  have hlt := c.txCounter.toNat_lt
  refine .inl ⟨by simpa using hk, ?_, rfl⟩
  rw [UInt64.toNat_add, UInt64.toNat_one, Nat.mod_eq_of_lt (by omega)]

end

/-! ## Runs -/

@[simp] theorem set_conn_self (w : Channel) (r : Role) (c : Session) : (w.set r c).conn r = c :=
  if_pos rfl

@[simp] theorem set_conn_other (w : Channel) {r q : Role} (c : Session) (h : q ≠ r) :
    (w.set r c).conn q = w.conn q := if_neg h

/-- The counters of the packets that an end opened. -/
def Channel.seen (w : Channel) (r : Role) : List UInt64 :=
  (w.opened.filter fun o => o.role = r).map fun o => rd64be o.pkt 1

/-- What the records of a channel say about its sessions. -/
structure Sound (P : Monocypher) (K : Role → Key) (w : Channel) : Prop where
  sent : ∀ s ∈ w.sent, s.key = K s.role ∧ ∃ n : UInt64, s.nonce = nonceOf n ∧
    n.toNat ≤ (w.conn s.role).txCounter.toNat ∧ s.pkt = sealed P s.key n s.plain
  fresh : (w.sent.map fun s => (s.key, s.nonce)).Nodup
  opened : ∀ o ∈ w.opened, ∃ s ∈ w.sent, s.role = o.role.other ∧ s.pkt = o.pkt ∧ s.plain = o.plain
  exact : ∀ r, Replay.Exact (w.conn r).rxMax (w.conn r).rxWindow (w.seen r)
  once : (w.opened.map fun o => (o.role, rd64be o.pkt 1)).Nodup

section
variable {P : Monocypher} {K : Role → Key} {w : Channel}

theorem Sound.set (h : Sound P K w) {r : Role} {c : Session} (hc : c.counters = (w.conn r).counters) :
    Sound P K (w.set r c) := by
  obtain ⟨ht, hm, hw⟩ : c.txCounter = (w.conn r).txCounter ∧ c.rxMax = (w.conn r).rxMax ∧
      c.rxWindow = (w.conn r).rxWindow := by simpa [Session.counters] using hc
  refine ⟨fun s hs => ?_, h.fresh, h.opened, fun q => ?_, h.once⟩
  · obtain ⟨hk, n, hn, hle, hp⟩ := h.sent s hs
    refine ⟨hk, n, hn, ?_, hp⟩
    by_cases hq : s.role = r
    · rw [hq, set_conn_self, ht, ← hq]
      exact hle
    · rwa [set_conn_other w c hq]
  · by_cases hq : q = r
    · rw [hq, set_conn_self, hm, hw]
      exact h.exact r
    · rw [set_conn_other w c hq]
      exact h.exact q

theorem Sound.send (hK : ∀ q r, K q = K r → q = r) (h : Sound P K w) {r : Role} (plain : List UInt8)
    (hkey : (w.conn r).txKey = K r)
    (hn : (w.conn r).txCounter.toNat + 1 = ((w.conn r).txCounter + 1).toNat) :
    let c := { w.conn r with txCounter := (w.conn r).txCounter + 1 }
    Sound P K { w.set r c with
      sent := w.sent ++ [⟨r, c.txKey, nonceOf c.txCounter, plain, sealed P c.txKey c.txCounter plain⟩] }
    := by
  intro c
  refine ⟨fun s hs => ?_, ?_, fun o ho => ?_, fun q => ?_, h.once⟩
  · rcases List.mem_append.1 hs with hs | hs
    · obtain ⟨hk, n, hnon, hle, hp⟩ := h.sent s hs
      refine ⟨hk, n, hnon, ?_, hp⟩
      by_cases hq : s.role = r
      · have : n.toNat ≤ (w.conn r).txCounter.toNat := hq ▸ hle
        rw [hq]
        change n.toNat ≤ ((w.set r c).conn r).txCounter.toNat
        rw [set_conn_self]
        change n.toNat ≤ ((w.conn r).txCounter + 1).toNat
        omega
      · change n.toNat ≤ ((w.set r c).conn s.role).txCounter.toNat
        rwa [set_conn_other w c hq]
    · obtain rfl := List.mem_singleton.1 hs
      refine ⟨hkey, c.txCounter, rfl, ?_, rfl⟩
      change c.txCounter.toNat ≤ ((w.set r c).conn r).txCounter.toNat
      rw [set_conn_self]
  · -- an older packet under this key is our own, with a smaller counter
    rw [List.map_append, List.nodup_append]
    refine ⟨h.fresh, by simp, fun x hx y hy => ?_⟩
    obtain ⟨s, hs, rfl⟩ := List.mem_map.1 hx
    obtain rfl := List.mem_singleton.1 hy
    intro heq
    obtain ⟨hk, n, hnon, hle, -⟩ := h.sent s hs
    obtain ⟨h1, h2⟩ := Prod.mk.inj heq
    have hq : s.role = r := hK _ _ (hk.symm.trans (h1.trans hkey))
    have hnc : n = c.txCounter := nonceOf_injective (hnon.symm.trans h2)
    rw [hq, hnc] at hle
    change ((w.conn r).txCounter + 1).toNat ≤ _ at hle
    omega
  · obtain ⟨s, hs, h'⟩ := h.opened o ho
    exact ⟨s, List.mem_append_left _ hs, h'⟩
  · change Replay.Exact ((w.set r c).conn q).rxMax ((w.set r c).conn q).rxWindow (w.seen q)
    by_cases hq : q = r
    · rw [hq, set_conn_self]
      exact h.exact r
    · rw [set_conn_other w c hq]
      exact h.exact q

theorem Sound.recv (h : Sound P K w) {r : Role} {pkt plain : List UInt8} {c : Session}
    (ho : ∃ s ∈ w.sent, s.role = r.other ∧ s.pkt = pkt ∧ s.plain = plain)
    (hre : replayCheckAndUpdate (w.conn r) (rd64be pkt 1) = some c) :
    Sound P K { w.set r c with opened := w.opened ++ [⟨r, pkt, plain⟩] } := by
  obtain ⟨hnew, hex⟩ := replay_exact (h.exact r) hre
  obtain ⟨win, max, hc⟩ := replay_frame hre
  have hseen (q : Role) : Channel.seen { w.set r c with opened := w.opened ++ [⟨r, pkt, plain⟩] } q =
      w.seen q ++ if r = q then [rd64be pkt 1] else [] := by
    unfold Channel.seen
    rw [List.filter_append, List.map_append]
    congr 1
    by_cases hq : r = q
    · simp [hq]
    · simp [hq]
  refine ⟨fun s hs => ?_, h.fresh, fun o hmem => ?_, fun q => ?_, ?_⟩
  · obtain ⟨hk, n, hnon, hle, hp⟩ := h.sent s hs
    refine ⟨hk, n, hnon, ?_, hp⟩
    change n.toNat ≤ ((w.set r c).conn s.role).txCounter.toNat
    by_cases hq : s.role = r
    · rw [hq, set_conn_self, hc]
      exact hq ▸ hle
    · rwa [set_conn_other w c hq]
  · rcases List.mem_append.1 hmem with hmem | hmem
    · exact h.opened o hmem
    · obtain rfl := List.mem_singleton.1 hmem
      exact ho
  · rw [hseen]
    change Replay.Exact ((w.set r c).conn q).rxMax ((w.set r c).conn q).rxWindow _
    by_cases hq : r = q
    · subst hq
      rw [if_pos rfl, set_conn_self]
      exact hex
    · rw [if_neg hq, set_conn_other w c (Ne.symm hq), List.append_nil]
      exact h.exact q
  · rw [List.map_append, List.nodup_append]
    refine ⟨h.once, by simp, fun x hx y hy => ?_⟩
    obtain ⟨o, hmem, rfl⟩ := List.mem_map.1 hx
    obtain rfl := List.mem_singleton.1 hy
    intro heq
    obtain ⟨h1, h2⟩ := Prod.mk.inj heq
    refine hnew (List.mem_map.2 ⟨o, List.mem_filter.2 ⟨hmem, ?_⟩, h2⟩)
    exact decide_eq_true h1

/-- A packet that decrypts is one that the other end sealed. -/
theorem authentic (hun : P.Unlocks) (hK : ∀ q r, K q = K r → q = r) (h : Sound P K w) {r : Role}
    {answer : Option Key → Bool} {pkt plain : List UInt8} {cap : Nat}
    (hkey : (w.conn r).rxKey = K r.other) (hnf : w.NotForged P (.recv r answer pkt cap))
    (h0 : byte pkt 0 = ncCryptoData) (hlen : ncCryptoOverhead ≤ pkt.length)
    (hdec : P.aeadUnlock (w.conn r).rxKey (nonceOf (rd64be pkt 1)) (bytesAt 16 pkt 9)
      (pkt.drop ncCryptoOverhead) = some plain) :
    ∃ s ∈ w.sent, s.role = r.other ∧ s.pkt = pkt ∧ s.plain = plain := by
  obtain ⟨s, hs, hsk, hsn, hlock⟩ := hnf (by rw [hdec]; simp)
  obtain ⟨hk, n, hnon, -, hp⟩ := h.sent s hs
  have hn : n = rd64be pkt 1 := nonceOf_injective (hnon.symm.trans hsn)
  refine ⟨s, hs, hK _ _ (hk.symm.trans (hsk.trans hkey)), ?_, ?_⟩
  · rw [hp, hn]
    exact eq_sealed h0 hlen (hsn ▸ hlock)
  · have := hun s.key s.nonce s.plain
    rw [hlock, hsk, hsn, hdec] at this
    exact (Option.some.inj this).symm

theorem sound_step (hun : P.Unlocks) (hK : ∀ q r, K q = K r → q = r) (h : Sound P K w) (op : Op)
    (hag : w.Agreed K) (hnf : w.NotForged P op) : Sound P K (w.step P op) := by
  cases op with
  | send r plain cap =>
    rw [Channel.step]
    rcases seal_cases P (w.conn r) plain cap with ⟨hk, hn, he⟩ | he
    · rw [he]
      exact h.send hK plain (hag r hk).1 hn
    · rw [he]
      exact h.set rfl
  | recv r answer pkt cap =>
    rw [Channel.step]
    rcases open_cases P answer (w.conn r) pkt cap with
      ⟨plain, c, he, h0, hlen, hk, hdec, hre⟩ | ⟨c, acts, he, h0, hc⟩ | he
    · rw [he]
      dsimp only
      rw [if_pos h0]
      exact h.recv (authentic hun hK h (hag r hk).2 hnf h0 hlen hdec) hre
    · rw [he]
      dsimp only
      rw [if_neg h0]
      exact h.set hc
    · rw [he]
      exact h.set rfl

end

/-- **The sealed channel is authentic and replay-free**: after any interleaving of calls and any
datagrams, every DATA packet that was opened was sealed by the other end and gave its plaintext, no
end opened a packet twice, no nonce was used twice under one key, and a call of `nc_crypto_open` that
fails leaves the session as it is. -/
theorem channel_sound {P : Monocypher} (hun : P.Unlocks) {K : Role → Key}
    (hK : K .initiator ≠ K .responder) {conn : Role → Session} (h0 : ∀ r, (conn r).Unused)
    {ops : List Op}
    (hops : Along (Channel.step P) (fun w op => w.Agreed K ∧ w.NotForged P op) { conn } ops) :
    let w := run (Channel.step P) { conn } ops
    (∀ o ∈ w.opened, ∃ s ∈ w.sent, s.role = o.role.other ∧ s.pkt = o.pkt ∧ s.plain = o.plain) ∧
    (w.opened.map fun o => (o.role, o.pkt)).Nodup ∧
    (w.sent.map fun s => (s.key, s.nonce)).Nodup ∧
    ∀ r answer pkt cap, (ncCryptoOpen P answer (w.conn r) pkt cap).1 = none →
      (ncCryptoOpen P answer (w.conn r) pkt cap).2.1 = w.conn r := by
  have hinj : ∀ q r, K q = K r → q = r := by
    intro q r h
    cases q with
    | initiator =>
      cases r with
      | initiator => rfl
      | responder => exact absurd h hK
    | responder =>
      cases r with
      | initiator => exact absurd h.symm hK
      | responder => rfl
  have hstart : Sound P K { conn } := by
    refine ⟨nofun, by simp, nofun, fun r => ?_, by simp⟩
    obtain ⟨-, hm, hw⟩ := h0 r
    change Replay.Exact (conn r).rxMax (conn r).rxWindow []
    rw [hm, hw]
    exact Replay.exact_nil
  have h : Sound P K (run (Channel.step P) { conn } ops) :=
    run_invariant (I := Sound P K) (fun w op hw ha => sound_step hun hinj hw op ha.1 ha.2) hstart hops
  refine ⟨h.opened, ?_, h.fresh, fun r answer pkt cap herr => ?_⟩
  · refine List.Nodup.of_map (fun x : Role × List UInt8 => (x.1, rd64be x.2 1)) ?_
    rw [List.map_map]
    exact h.once
  · rcases open_cases P answer ((run (Channel.step P) { conn } ops).conn r) pkt cap with
      ⟨plain, c, he, -⟩ | ⟨c, acts, he, -⟩ | he
    · rw [he] at herr
      cases herr
    · rw [he] at herr
      cases herr
    · rw [he]

theorem sample_unlocks : sampleMonocypher.Unlocks := by
  intro k n p
  simp only [sampleMonocypher]
  by_cases h : k = sampleKey ∧ n = nonceOf 1 ∧ p = [0x68, 0x69]
  · rw [if_pos h, if_pos ⟨h.1, h.2.1, rfl⟩, h.2.2]
  · rw [if_neg h, if_neg fun hc => ?_, if_pos rfl]
    exact absurd (congrArg Prod.fst hc.2.2) (show Bytes.zero 16 ≠ samplePacket.1 by decide)

/-- The handshake of `sampleMonocypher`, one packet, and the packet again. -/
def sampleOps : List Op :=
  let pkt := sealed sampleMonocypher sampleKey 1 [0x68, 0x69]
  [.recv .initiator (fun _ => true) (sampleHello .responder) 0,
    .recv .responder (fun _ => true) (sampleHello .initiator) 0,
    .send .initiator [0x68, 0x69] 100, .recv .responder (fun _ => true) pkt 100,
    .recv .responder (fun _ => true) pkt 100]

theorem channel_sound_sample :
    let w := run (Channel.step sampleMonocypher) { conn := sampleSession } sampleOps
    w.opened = [⟨.responder, sealed sampleMonocypher sampleKey 1 [0x68, 0x69], [0x68, 0x69]⟩] ∧
      (∀ o ∈ w.opened, ∃ s ∈ w.sent, s.role = o.role.other ∧ s.pkt = o.pkt ∧ s.plain = o.plain) := by
  have hw : (run (Channel.step sampleMonocypher) { conn := sampleSession } sampleOps).opened =
      [⟨.responder, sealed sampleMonocypher sampleKey 1 [0x68, 0x69], [0x68, 0x69]⟩] := by
    decide +kernel
  refine ⟨hw, (@channel_sound sampleMonocypher sample_unlocks
    (fun r => deriveOut sampleMonocypher sampleDh (.zero 32) (.zero 32) (samplePk .initiator)
      (samplePk .responder) (.zero 32) (.zero 32) (.zero 32)
      (match r with | .initiator => labelI2R | .responder => labelR2I))
    (by decide +kernel) sampleSession (fun r => ⟨rfl, rfl, rfl⟩) sampleOps (by decide +kernel)).1⟩

end Netchan.Crypto
