import Netchan.Auth.Core
import Netchan.Crypto.Keys
import Netchan.Lib.Run

/-!
# The client's calls

`ClientCall` is a call on a client conversation. A conversation that ended should be silent; `need` and
`ia_method` are not cleared on every way to its end, so this holds of the runs whose calls are
`Orderly`: none of them ends the conversation while a question is put to the application or a method
runs that was not cancelled. `ended_silent` is the theorem, `ended_asks` the run where it fails.
-/

namespace Netchan.Auth

open Lib Idl Crypto

inductive ClientCall
  | feed (msg : List UInt8)
  | supplyKey (keys : Option (Bytes 64 × Key))
  | supplyPassword (password : Option CStr)
  | supplyMethod (method : UInt32)
  | submit (vals : Option (List FormValue))
  | cancel
  | resumePending (tok : List UInt8)

/-- A client makes no callbacks. -/
def noEnv : Env where
  methods _ := 0
  checkKey _ _ := false
  checkPassword _ _ := false
  start _ := { what := .denied }
  submit _ := { what := .denied }
  resume _ := { what := .denied }

section
variable (P : Monocypher)

def ClientCall.exec (a : NcAuth) : ClientCall → NcAuth × List Act
  | .feed msg => (ncAuthFeed P noEnv a msg).2
  | .supplyKey keys => ncAuthSupplyKey P a keys
  | .supplyPassword password => ncAuthSupplyPassword a password
  | .supplyMethod method => ncAuthSupplyMethod a method
  | .submit vals => ncAuthSubmit a vals
  | .cancel => ncAuthCancel a
  | .resumePending tok => (ncAuthResumePending a tok, [])

def ClientCall.apply (a : NcAuth) (c : ClientCall) : NcAuth := (c.exec P a).1

def ClientCall.acts (a : NcAuth) (c : ClientCall) : List Act := (c.exec P a).2

end

/-! ## The condition -/

/-- The messages of a length that `nc_auth_feed` looks at. -/
def Fits (msg : List UInt8) : Prop :=
  1 ≤ msg.length ∧ msg.length ≤ if msgIsBulk (byte msg 0) then ncFormMaxMsg else ncAuthMaxMsg

section
variable {P : Monocypher} {a : NcAuth} {msg : List UInt8} {r : NcAuth × List Act}

theorem feed_client {env : Env} (hs : a.server = false) (hp : a.state = .pending) (hf : Fits msg)
    (h : clientFeed a msg = some r) : ncAuthFeed P env a msg = (true, r) := by
  obtain ⟨h1, h2⟩ := hf
  unfold ncAuthFeed
  rw [if_neg (by rw [not_or, not_not]; exact ⟨by omega, hp⟩), if_neg (Nat.not_lt.2 h2),
    if_neg (by rw [hs]; decide), h]

theorem feed_server {env : Env} (hs : a.server = true) (hp : a.state = .pending) (hf : Fits msg)
    (h : serverFeed P env a msg = some r) : ncAuthFeed P env a msg = (true, r) := by
  obtain ⟨h1, h2⟩ := hf
  unfold ncAuthFeed
  rw [if_neg (by rw [not_or, not_not]; exact ⟨by omega, hp⟩), if_neg (Nat.not_lt.2 h2), if_pos hs, h]

end

/-- A message that a client can take, other than `OK`. -/
def Acceptable (a : NcAuth) (msg : List UInt8) : Prop :=
  (byte msg 0 = msgMethods ∨ byte msg 0 = msgFail) ∧ msg.length = 2 ∨
  byte msg 0 = msgIaForm ∧ (a.cancelling = true ∨ a.iaMethod ≠ 0 ∧ a.need ≠ .form ∧
    (a.buf.bind fun cap => decodeForm cap msg).isSome = true) ∨
  byte msg 0 = msgIaWait ∧ (a.cancelling = true ∨ a.iaMethod ≠ 0 ∧
    (readTags waitBody msg {}).isSome = true)

/-- Nothing is put to the application, and no method runs that it did not cancel. -/
def Quiet (a : NcAuth) : Prop := a.need = .nothing ∧ (a.iaMethod = 0 ∨ a.cancelling = true)

/-- The methods that are left after an offer or a refusal. -/
def leftAfter (a : NcAuth) (msg : List UInt8) : UInt32 :=
  let mask := UInt32.ofNat (byte msg 1).toNat
  if byte msg 0 = msgMethods then mask else a.avail &&& mask

/-- The token fits into an `IA_BEGIN`, if an interactive method among `avail` is `chosen`. -/
def TokenFits (a : NcAuth) (chosen avail : UInt32) : Prop :=
  chosen &&& (mRegister ||| mInteractive) &&& avail ≠ 0 → a.token.length ≤ ncFormMaxToken - 3

/-- A call that does not end the conversation in the middle of something. -/
def Orderly (a : NcAuth) : ClientCall → Prop
  | .feed msg =>
    a.state = .pending → Fits msg →
      (byte msg 0 = msgOk ∨ ¬ Acceptable a msg → Quiet a) ∧
      (byte msg 0 = msgMethods ∧ msg.length = 2 ∧ byte msg 1 = 0 → a.need = .nothing) ∧
      ((byte msg 0 = msgMethods ∨ byte msg 0 = msgFail) ∧ msg.length = 2 ∧ a.chose = true →
        TokenFits a a.chosen (leftAfter a msg))
  | .supplyMethod method => a.need = .method → TokenFits a method a.avail
  | .submit (some vals) => a.need = .form → (encodeAnswers a.form vals ncFormMaxMsg).isSome = true
  | _ => True

instance (msg : List UInt8) : Decidable (Fits msg) := inferInstanceAs (Decidable (_ ∧ _))

instance (a : NcAuth) (msg : List UInt8) : Decidable (Acceptable a msg) :=
  inferInstanceAs (Decidable (_ ∨ _ ∨ _))

instance (a : NcAuth) : Decidable (Quiet a) := inferInstanceAs (Decidable (_ ∧ _))

instance (a : NcAuth) (chosen avail : UInt32) : Decidable (TokenFits a chosen avail) :=
  inferInstanceAs (Decidable (_ → _))

instance (a : NcAuth) : ∀ c, Decidable (Orderly a c)
  | .feed _ => inferInstanceAs (Decidable (_ → _ → _ ∧ _ ∧ _))
  | .supplyMethod _ => inferInstanceAs (Decidable (_ → _))
  | .submit (some _) => inferInstanceAs (Decidable (_ → _))
  | .submit none => .isTrue trivial
  | .supplyKey _ => .isTrue trivial
  | .supplyPassword _ => .isTrue trivial
  | .cancel => .isTrue trivial
  | .resumePending _ => .isTrue trivial

/-! ## What a call leaves -/

/-- What holds of a client conversation between orderly calls. -/
structure Orders (a : NcAuth) : Prop where
  client : a.server = false
  asks : a.need = .key ∨ a.need = .password ∨ a.need = .method → a.iaMethod = 0
  credential : a.need = .key ∨ a.need = .password →
    a.asked = true ∨ a.avail &&& (mRegister ||| mInteractive) = 0
  silent : a.state ≠ .pending → Quiet a

section
variable {P : Monocypher} {a : NcAuth}

theorem and_left_zero {x m k : UInt32} (h : x &&& k = 0) : x &&& m &&& k = 0 := by
  rw [UInt32.and_assoc, UInt32.and_comm m k, ← UInt32.and_assoc, h, UInt32.zero_and]

/-- The credentials are asked for one after the other, and then the conversation ends. -/
theorem tryCredentials_orders (hs : a.server = false) (hp : a.state = .pending) (hi : a.iaMethod = 0)
    (hc : a.asked = true ∨ a.avail &&& (mRegister ||| mInteractive) = 0) :
    Orders (tryCredentials a) := by
  have hc' (m : UInt32) :
      a.asked = true ∨ a.avail &&& m &&& (mRegister ||| mInteractive) = 0 :=
    hc.imp_right and_left_zero
  unfold tryCredentials
  split
  · exact ⟨hs, fun _ => hi, fun _ => hc' _, fun h => absurd hp h⟩
  split
  · exact ⟨hs, fun _ => hi, fun _ => hc' _, fun h => absurd hp h⟩
  · exact ⟨hs, fun _ => hi, by simp, fun _ => ⟨rfl, .inl hi⟩⟩

theorem begin_fits (m : UInt8) {tok : List UInt8} (h : tok.length ≤ ncFormMaxToken - 3) :
    ∃ msg, (do
      let msg ← msWriteTagU8 [msgIaBegin] (3 + ncFormMaxToken) fMethod m
      if tok.length > 0 then msWriteTagBytes msg (3 + ncFormMaxToken) fToken tok else some msg) =
        some msg := by
  have h1 : msWriteTagU8 [msgIaBegin] (3 + ncFormMaxToken) fMethod m =
      some [msgIaBegin, fMethod <<< 3 ||| msWire8, m] := rfl
  rw [h1]
  simp only [Option.bind_eq_bind, Option.bind_some]
  split
  · refine ⟨_, if_neg ?_⟩
    simp only [ncFormMaxToken] at h
    simp only [List.length_cons, List.length_nil, ncFormMaxToken]
    omega
  · exact ⟨_, rfl⟩

/-- **The player's answer** is acted on. -/
theorem iaChoose_orders (hs : a.server = false) (hp : a.state = .pending) (hi : a.iaMethod = 0)
    (ht : TokenFits a a.chosen a.avail) : Orders (iaChoose a).1 := by
  unfold iaChoose
  dsimp only
  split
  · exact ⟨hs, fun _ => hi, by simp, fun _ => ⟨rfl, .inl hi⟩⟩
  split
  · exact ⟨hs, fun _ => hi, by simp, fun h => absurd hp h⟩
  rename_i hw
  split
  · rw [if_neg (not_not.2 hp)]
    exact tryCredentials_orders hs hp hi (.inl rfl)
  rename_i hwant
  have hfit : a.token.length ≤ ncFormMaxToken - 3 := ht fun h0 => hw ⟨hwant, h0⟩
  obtain ⟨msg, he⟩ := begin_fits _ hfit
  rw [he]
  exact ⟨hs, by simp, by simp, fun h => absurd hp h⟩

theorem clientTryNext_orders (hs : a.server = false) (hp : a.state = .pending) (hi : a.iaMethod = 0)
    (ht : a.chose = true → a.asked = false → TokenFits a a.chosen a.avail) :
    Orders (clientTryNext a).1 := by
  unfold clientTryNext
  rw [if_neg (not_not.2 hp)]
  split
  · rename_i hask
    split
    · rename_i hch
      exact iaChoose_orders hs hp hi (ht hch (by simpa using hask.1))
    · exact ⟨hs, fun _ => hi, by simp, fun h => absurd hp h⟩
  · rename_i hask
    refine tryCredentials_orders hs hp hi ?_
    cases hasked : a.asked with
    | true => exact .inl rfl
    | false =>
      rw [hasked] at hask
      exact .inr (by simpa using hask)

theorem parked_spec (a : NcAuth) (p : WaitParts) : ∃ tok note strings,
    a.parked p = { a with need := .nothing, token := tok, waitNote := note, strings } := by
  have hkept : ∃ tok, a.kept p.tok = { a with token := tok } := by
    unfold NcAuth.kept
    split
    · exact ⟨a.token, rfl⟩
    split
    · exact ⟨_, rfl⟩
    · exact ⟨a.token, rfl⟩
  obtain ⟨tok, he⟩ := hkept
  have hnoted (b : NcAuth) : ∃ note strings,
      b.noted p.note = { b with waitNote := note, strings } := by
    unfold NcAuth.noted
    split
    · split
      · exact ⟨_, _, rfl⟩
      · exact ⟨_, _, rfl⟩
    · exact ⟨b.waitNote, b.strings, rfl⟩
  obtain ⟨note, strings, hn⟩ := hnoted { a with token := tok }
  exact ⟨tok, note, strings, by rw [NcAuth.parked, he, hn]⟩

/-- **What a client does with a message** that is not an error. -/
theorem clientFeed_orders {msg : List UInt8} {r : NcAuth × List Act} (h : Orders a)
    (hp : a.state = .pending) (hr : clientFeed a msg = some r)
    (hok : byte msg 0 = msgOk → Quiet a)
    (hzero : byte msg 0 = msgMethods ∧ msg.length = 2 ∧ byte msg 1 = 0 → a.need = .nothing)
    (htok : (byte msg 0 = msgMethods ∨ byte msg 0 = msgFail) ∧ msg.length = 2 ∧ a.chose = true →
      TokenFits a a.chosen (leftAfter a msg)) : Orders r.1 := by
  unfold clientFeed at hr
  split at hr
  · rename_i hm
    split at hr
    · cases hr
    rename_i hlen
    have hlen := not_not.1 hlen
    dsimp only at hr
    split at hr
    · rename_i h0
      cases hr
      have hb : byte msg 1 = 0 := by
        have h1 : (byte msg 1).toNat < 256 := (byte msg 1).toNat_lt
        have h2 := congrArg UInt32.toNat h0
        rw [UInt32.toNat_ofNat_of_lt' (Nat.lt_trans h1 (by decide))] at h2
        exact UInt8.toNat_inj.1 h2
      have hn := hzero ⟨hm, hlen, hb⟩
      exact ⟨h.client, fun _ => rfl, by simp [hn], fun _ => ⟨hn, .inl rfl⟩⟩
    · cases hr
      refine clientTryNext_orders h.client hp rfl fun hch _ => ?_
      have := htok ⟨.inl hm, hlen, hch⟩
      rwa [leftAfter, if_pos hm] at this
  rename_i hm
  split at hr
  · rename_i hokm
    cases hr
    exact ⟨h.client, h.asks, h.credential, fun _ => hok hokm⟩
  split at hr
  · rename_i hf
    split at hr
    · cases hr
    rename_i hlen
    have hlen := not_not.1 hlen
    cases hr
    refine clientTryNext_orders h.client hp rfl fun hch _ => ?_
    have := htok ⟨.inr hf, hlen, hch⟩
    rwa [leftAfter, if_neg hm] at this
  unfold iaClient at hr
  split at hr
  · split at hr
    · cases hr
      exact h
    split at hr
    · cases hr
    split at hr
    · cases hr
    split at hr
    · cases hr
    · cases hr
      exact ⟨h.client, by simp, by simp, fun hne => absurd hp hne⟩
  split at hr
  · split at hr
    · cases hr
      exact h
    split at hr
    · cases hr
    obtain ⟨p, -, rfl⟩ := Option.map_eq_some_iff.1 hr
    obtain ⟨tok, note, strings, he⟩ := parked_spec a p
    rw [he]
    exact ⟨h.client, by simp, by simp, fun hne => absurd hp hne⟩
  · cases hr

theorem clientFeed_ia {msg : List UInt8} (h : byte msg 0 = msgIaForm ∨ byte msg 0 = msgIaWait) :
    clientFeed a msg = iaClient a msg := by
  have hne (t : UInt8) (h1 : msgIaForm ≠ t) (h2 : msgIaWait ≠ t) : byte msg 0 ≠ t := by
    rcases h with h | h
    · rwa [h]
    · rwa [h]
  unfold clientFeed
  rw [if_neg (hne _ (by decide) (by decide)), if_neg (hne _ (by decide) (by decide)),
    if_neg (hne _ (by decide) (by decide))]

/-- A message that ends the conversation as an error is one that the client cannot take. -/
theorem clientFeed_none {msg : List UInt8} (hr : clientFeed a msg = none) : ¬ Acceptable a msg := by
  intro hacc
  rcases hacc with ⟨hm | hf, hlen⟩ | ⟨hf, hform⟩ | ⟨hw, hwait⟩
  · unfold clientFeed at hr
    rw [if_pos hm, if_neg (not_not.2 hlen)] at hr
    dsimp only at hr
    split at hr
    · cases hr
    · cases hr
  · unfold clientFeed at hr
    rw [if_neg (by rw [hf]; decide), if_neg (by rw [hf]; decide), if_pos hf,
      if_neg (not_not.2 hlen)] at hr
    cases hr
  · rw [clientFeed_ia (.inl hf), iaClient, if_pos hf] at hr
    rcases hform with hc | ⟨hi, hn, hd⟩
    · rw [if_pos hc] at hr
      cases hr
    · obtain ⟨r, hd⟩ := Option.isSome_iff_exists.1 hd
      split at hr
      · cases hr
      · rw [hd] at hr
        cases hr
  · rw [clientFeed_ia (.inr hw), iaClient, if_neg (by rw [hw]; decide), if_pos hw] at hr
    rcases hwait with hc | ⟨hi, hd⟩
    · rw [if_pos hc] at hr
      cases hr
    · obtain ⟨r, hd⟩ := Option.isSome_iff_exists.1 hd
      split at hr
      · cases hr
      · rw [hd] at hr
        cases hr

theorem cancel_orders (h : Orders a) : Orders (ncAuthCancel a).1 := by
  unfold ncAuthCancel
  split
  · exact h
  · exact ⟨h.client, by simp, by simp, fun _ => ⟨rfl, .inr rfl⟩⟩

/-- A credential that the application does not have is skipped. -/
theorem skip_orders (h : Orders a) (hp : a.state = .pending) (hn : a.need = .key ∨ a.need = .password) :
    Orders (clientTryNext { a with need := .nothing }).1 := by
  have hi : a.iaMethod = 0 := h.asks (hn.imp_right .inl)
  unfold clientTryNext
  rw [if_neg (not_not.2 hp), if_neg]
  · exact tryCredentials_orders h.client hp hi (h.credential hn)
  · rintro ⟨h1, h2⟩
    rcases h.credential hn with hc | hc
    · exact absurd h1 (by simp [hc])
    · exact h2 hc

/-- **An orderly call keeps the order.** -/
theorem Orders.step (h : Orders a) {c : ClientCall} (hc : Orderly a c) : Orders (c.apply P a) := by
  have hsupply {n : Need} (hn : a.need = n) (hne : n ≠ .nothing) : a.state = .pending := by
    by_contra hp
    exact hne (hn.symm.trans (h.silent hp).1)
  cases c with
  | feed msg =>
    simp only [ClientCall.apply, ClientCall.exec, ncAuthFeed]
    split
    · exact h
    rename_i h1
    simp only [not_or, not_not] at h1
    generalize hcap : (if msgIsBulk (byte msg 0) = true then ncFormMaxMsg else ncAuthMaxMsg) = cap
    split
    · exact h
    rename_i h2
    obtain ⟨hok, hzero, htok⟩ := hc h1.2 ⟨by omega, by rw [hcap]; omega⟩
    rw [if_neg (by rw [h.client]; decide)]
    cases hr : clientFeed a msg with
    | none => exact ⟨h.client, h.asks, h.credential, fun _ => hok (.inr (clientFeed_none hr))⟩
    | some r => exact clientFeed_orders h h1.2 hr (fun hm => hok (.inl hm)) hzero htok
  | supplyKey keys =>
    simp only [ClientCall.apply, ClientCall.exec, ncAuthSupplyKey]
    split
    · exact h
    rename_i h1
    simp only [not_or, not_not] at h1
    have hp := hsupply h1.2 (by decide)
    cases keys with
    | none => exact skip_orders h hp (.inl h1.2)
    | some keys => exact ⟨h.client, by simp, by simp, fun hne => absurd hp hne⟩
  | supplyPassword password =>
    simp only [ClientCall.apply, ClientCall.exec, ncAuthSupplyPassword]
    split
    · exact h
    rename_i h1
    simp only [not_or, not_not] at h1
    have hp := hsupply h1.2 (by decide)
    cases password with
    | none => exact skip_orders h hp (.inr h1.2)
    | some password =>
      dsimp only
      split
      · exact skip_orders h hp (.inr h1.2)
      · exact ⟨h.client, by simp, by simp, fun hne => absurd hp hne⟩
  | supplyMethod method =>
    simp only [ClientCall.apply, ClientCall.exec, ncAuthSupplyMethod]
    split
    · exact h
    split
    · rename_i hn
      exact iaChoose_orders h.client (hsupply hn (by decide)) (h.asks (.inr (.inr hn))) (hc hn)
    · exact ⟨h.client, h.asks, h.credential, h.silent⟩
  | submit vals =>
    simp only [ClientCall.apply, ClientCall.exec, ncAuthSubmit]
    split
    · exact h
    rename_i h1
    simp only [not_or, not_not] at h1
    have hp := hsupply h1.2 (by decide)
    have hplain : Orders { a with need := .nothing } :=
      ⟨h.client, by simp, by simp, fun hne => absurd hp hne⟩
    cases vals with
    | none => exact cancel_orders hplain
    | some vals =>
      obtain ⟨msg, he⟩ := Option.isSome_iff_exists.1 (hc h1.2)
      dsimp only
      rw [he]
      exact hplain
  | cancel => exact cancel_orders h
  | resumePending tok =>
    simp only [ClientCall.apply, ClientCall.exec, ncAuthResumePending]
    split
    · exact h
    · exact ⟨h.client, h.asks, h.credential, h.silent⟩

/-! ## What no call changes -/

/-- Who talks, how, and in which session. -/
structure Kept (a b : NcAuth) : Prop where
  server : b.server = a.server
  sid : b.sid = a.sid
  user : b.user = a.user
  cbs : b.cbs = a.cbs
  buf : b.buf = a.buf

theorem Kept.refl (a : NcAuth) : Kept a a := ⟨rfl, rfl, rfl, rfl, rfl⟩

theorem Kept.after {b c : NcAuth} (h' : Kept b c) (h : Kept a b) : Kept a c :=
  ⟨h'.server.trans h.server, h'.sid.trans h.sid, h'.user.trans h.user, h'.cbs.trans h.cbs,
    h'.buf.trans h.buf⟩

theorem tryCredentials_kept (a : NcAuth) : Kept a (tryCredentials a) := by
  unfold tryCredentials
  split
  · exact ⟨rfl, rfl, rfl, rfl, rfl⟩
  split
  · exact ⟨rfl, rfl, rfl, rfl, rfl⟩
  · exact ⟨rfl, rfl, rfl, rfl, rfl⟩

theorem iaChoose_kept (a : NcAuth) : Kept a (iaChoose a).1 := by
  unfold iaChoose
  dsimp only
  split
  · exact ⟨rfl, rfl, rfl, rfl, rfl⟩
  split
  · exact ⟨rfl, rfl, rfl, rfl, rfl⟩
  split
  · split
    · exact ⟨rfl, rfl, rfl, rfl, rfl⟩
    · exact (tryCredentials_kept _).after ⟨rfl, rfl, rfl, rfl, rfl⟩
  split
  · exact ⟨rfl, rfl, rfl, rfl, rfl⟩
  · exact ⟨rfl, rfl, rfl, rfl, rfl⟩

theorem clientTryNext_kept (a : NcAuth) : Kept a (clientTryNext a).1 := by
  unfold clientTryNext
  split
  · exact Kept.refl a
  split
  · split
    · exact iaChoose_kept a
    · exact ⟨rfl, rfl, rfl, rfl, rfl⟩
  · exact tryCredentials_kept a

theorem clientFeed_kept {msg : List UInt8} {r : NcAuth × List Act}
    (hr : clientFeed a msg = some r) : Kept a r.1 := by
  have htry {b : NcAuth} (he : some (clientTryNext b) = some r) (hb : Kept a b) : Kept a r.1 := by
    obtain rfl := Option.some.inj he
    exact (clientTryNext_kept b).after hb
  unfold clientFeed at hr
  split at hr
  · split at hr
    · cases hr
    dsimp only at hr
    split at hr
    · cases hr
      exact ⟨rfl, rfl, rfl, rfl, rfl⟩
    · exact htry hr ⟨rfl, rfl, rfl, rfl, rfl⟩
  split at hr
  · cases hr
    exact ⟨rfl, rfl, rfl, rfl, rfl⟩
  split at hr
  · split at hr
    · cases hr
    dsimp only at hr
    exact htry hr ⟨rfl, rfl, rfl, rfl, rfl⟩
  unfold iaClient at hr
  split at hr
  · split at hr
    · cases hr
      exact Kept.refl a
    split at hr
    · cases hr
    split at hr
    · cases hr
    split at hr
    · cases hr
    · cases hr
      exact ⟨rfl, rfl, rfl, rfl, rfl⟩
  split at hr
  · split at hr
    · cases hr
      exact Kept.refl a
    split at hr
    · cases hr
    obtain ⟨p, -, rfl⟩ := Option.map_eq_some_iff.1 hr
    obtain ⟨tok, note, strings, he⟩ := parked_spec a p
    rw [he]
    exact ⟨rfl, rfl, rfl, rfl, rfl⟩
  · cases hr

theorem cancel_kept (a : NcAuth) : Kept a (ncAuthCancel a).1 := by
  unfold ncAuthCancel
  split
  · exact Kept.refl a
  · exact ⟨rfl, rfl, rfl, rfl, rfl⟩

/-- **A client keeps its name and its session.** -/
theorem ClientCall.kept (hs : a.server = false) (c : ClientCall) : Kept a (c.apply P a) := by
  have hskip : Kept a (clientTryNext { a with need := .nothing }).1 :=
    (clientTryNext_kept _).after ⟨rfl, rfl, rfl, rfl, rfl⟩
  cases c with
  | feed msg =>
    simp only [ClientCall.apply, ClientCall.exec, ncAuthFeed]
    split
    · exact Kept.refl a
    generalize (if msgIsBulk (byte msg 0) = true then ncFormMaxMsg else ncAuthMaxMsg) = cap
    split
    · exact Kept.refl a
    rw [if_neg (by rw [hs]; decide)]
    cases hr : clientFeed a msg with
    | none => exact ⟨rfl, rfl, rfl, rfl, rfl⟩
    | some r => exact clientFeed_kept hr
  | supplyKey keys =>
    simp only [ClientCall.apply, ClientCall.exec, ncAuthSupplyKey]
    split
    · exact Kept.refl a
    cases keys with
    | none => exact hskip
    | some keys => exact ⟨rfl, rfl, rfl, rfl, rfl⟩
  | supplyPassword password =>
    simp only [ClientCall.apply, ClientCall.exec, ncAuthSupplyPassword]
    split
    · exact Kept.refl a
    cases password with
    | none => exact hskip
    | some password =>
      dsimp only
      split
      · exact hskip
      · exact ⟨rfl, rfl, rfl, rfl, rfl⟩
  | supplyMethod method =>
    simp only [ClientCall.apply, ClientCall.exec, ncAuthSupplyMethod]
    split
    · exact Kept.refl a
    split
    · exact (iaChoose_kept _).after ⟨rfl, rfl, rfl, rfl, rfl⟩
    · exact ⟨rfl, rfl, rfl, rfl, rfl⟩
  | submit vals =>
    simp only [ClientCall.apply, ClientCall.exec, ncAuthSubmit]
    split
    · exact Kept.refl a
    cases vals with
    | none => exact (cancel_kept _).after ⟨rfl, rfl, rfl, rfl, rfl⟩
    | some vals =>
      dsimp only
      split
      · exact ⟨rfl, rfl, rfl, rfl, rfl⟩
      · exact ⟨rfl, rfl, rfl, rfl, rfl⟩
  | cancel => exact cancel_kept a
  | resumePending tok =>
    simp only [ClientCall.apply, ClientCall.exec, ncAuthResumePending]
    split
    · exact Kept.refl a
    · exact ⟨rfl, rfl, rfl, rfl, rfl⟩

theorem kept_run (hs : a.server = false) (cs : List ClientCall) :
    Kept a (run (ClientCall.apply P) a cs) :=
  run_invariant (I := Kept a) (fun _ c hb _ => (c.kept (hb.server.trans hs)).after hb) (Kept.refl a)
    (along_true cs)

/-! ## After the end -/

/-- A conversation that ended in order. -/
def Over (a : NcAuth) : Prop := a.server = false ∧ a.state ≠ .pending ∧ Quiet a

/-- **No call changes that, and none sends a message.** -/
theorem Over.step (h : Over a) (c : ClientCall) : Over (c.apply P a) ∧ c.acts P a = [] := by
  obtain ⟨hs, hp, hn, hi⟩ := h
  cases c with
  | feed msg =>
    have he : ncAuthFeed P noEnv a msg = (false, a, []) := if_pos (.inr hp)
    simp only [ClientCall.apply, ClientCall.acts, ClientCall.exec, he, and_true]
    exact ⟨hs, hp, hn, hi⟩
  | supplyKey keys =>
    have he : ncAuthSupplyKey P a keys = (a, []) := if_pos (.inr (by rw [hn]; decide))
    simp only [ClientCall.apply, ClientCall.acts, ClientCall.exec, he, and_true]
    exact ⟨hs, hp, hn, hi⟩
  | supplyPassword password =>
    have he : ncAuthSupplyPassword a password = (a, []) := if_pos (.inr (by rw [hn]; decide))
    simp only [ClientCall.apply, ClientCall.acts, ClientCall.exec, he, and_true]
    exact ⟨hs, hp, hn, hi⟩
  | supplyMethod method =>
    have he : ncAuthSupplyMethod a method = ({ a with chosen := method, chose := true }, []) := by
      unfold ncAuthSupplyMethod
      rw [if_neg (by rw [hs]; decide), if_neg (by rw [hn]; decide)]
    simp only [ClientCall.apply, ClientCall.acts, ClientCall.exec, he, and_true]
    exact ⟨hs, hp, hn, hi⟩
  | submit vals =>
    have he : ncAuthSubmit a vals = (a, []) := if_pos (.inr (by rw [hn]; decide))
    simp only [ClientCall.apply, ClientCall.acts, ClientCall.exec, he, and_true]
    exact ⟨hs, hp, hn, hi⟩
  | cancel =>
    have he : ncAuthCancel a = (a, []) := if_pos (.inr hi)
    simp only [ClientCall.apply, ClientCall.acts, ClientCall.exec, he, and_true]
    exact ⟨hs, hp, hn, hi⟩
  | resumePending tok =>
    refine ⟨?_, rfl⟩
    simp only [ClientCall.apply, ClientCall.exec, ncAuthResumePending]
    split
    · exact ⟨hs, hp, hn, hi⟩
    · exact ⟨hs, hp, hn, hi⟩

/-- The client conversation before its first call. -/
def newClient (sid : Key) (user : CStr) (send : Bool) (buf : Option Nat) : NcAuth :=
  ncAuthBuffer (ncAuthClientInit sid user send) buf

end

/-- **A finished client conversation is silent**, if no call ended it in the middle of something: nothing
is put to the application, and whatever is called later sends no message. -/
theorem ended_silent {P : Monocypher} {sid : Key} {user : CStr} {send : Bool} {buf : Option Nat}
    {cs : List ClientCall}
    (hcs : Along (ClientCall.apply P) Orderly (newClient sid user send buf) cs) :
    let a := run (ClientCall.apply P) (newClient sid user send buf) cs
    a.state ≠ .pending → a.need = .nothing ∧
      ∀ ds c, ClientCall.acts P (run (ClientCall.apply P) a ds) c = [] := by
  intro a hp
  have h : Orders a :=
    run_invariant (I := Orders) (fun _ _ hb hc => hb.step hc)
      ⟨rfl, by simp [newClient, ncAuthBuffer, ncAuthClientInit],
        by simp [newClient, ncAuthBuffer, ncAuthClientInit], fun hne => absurd rfl hne⟩ hcs
  refine ⟨(h.silent hp).1, fun ds c => ?_⟩
  have hover : Over (run (ClientCall.apply P) a ds) :=
    run_invariant (I := Over) (fun _ d hb _ => (hb.step d).1) ⟨h.client, hp, h.silent hp⟩
      (along_true ds)
  exact (hover.step c).2

/-- A user who has no password. -/
theorem ended_silent_sample :
    let a0 := newClient (.zero 32) ⟨chars ['b', 'o', 'b'], by decide⟩ true none
    let a := run (ClientCall.apply sampleMonocypher) a0
      [.feed [msgMethods, 2], .supplyPassword none]
    a.state = .denied ∧ a.need = .nothing := by
  intro a0 a
  have hd : a.state = .denied := by decide +kernel
  have h := @ended_silent sampleMonocypher (.zero 32) ⟨chars ['b', 'o', 'b'], by decide⟩ true none
    [.feed [msgMethods, 2], .supplyPassword none] (by decide +kernel)
  exact ⟨hd, (h fun hp => absurd (hd.symm.trans hp) (by decide)).1⟩

/-- The server asks for the password and then says `OK` at once: the conversation is over, and the
password still leaves. -/
theorem ended_asks :
    let a0 := newClient (.zero 32) ⟨chars ['b', 'o', 'b'], by decide⟩ true none
    let a := run (ClientCall.apply sampleMonocypher) a0 [.feed [msgMethods, 2], .feed [msgOk]]
    a.state = .ok ∧ a.need = .password ∧
      ClientCall.acts sampleMonocypher a (.supplyPassword (some ⟨chars ['p', 'w'], by decide⟩)) =
        [.emit (msgPassword :: 2 :: chars ['p', 'w'])] := by
  decide +kernel

end Netchan.Auth
