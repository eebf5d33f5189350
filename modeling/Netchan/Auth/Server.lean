import Netchan.Auth.Core
import Netchan.Lib.Run

/-!
# The server's calls

`ServerCall` is a call on a server conversation. `Fed` lists what `nc_auth_feed` can do to it, one
constructor for each handler; `verdict_cases` does the same for `verdict`. `Serving` is what holds of
a server between calls, and `serverDeny_spec`, `serverOffer_spec` say what an answer changes.
-/

namespace Netchan.Auth

open Lib Idl Crypto

inductive ServerCall
  | feed (env : Env) (msg : List UInt8)
  | issue (tok : List UInt8)
  | resume (env : Env) (what : Verdict) (form : Option Form) (token : Option (List UInt8))
  | clear

/-- Messages and the offer: acts that neither check a credential nor concern a method. -/
def Act.isPlain : Act → Bool
  | .emit _ => true
  | .methods _ _ => true
  | _ => false

def Plain (acts : List Act) : Prop := ∀ x ∈ acts, x.isPlain = true

section
variable (P : Monocypher)

/-- The conversation and the acts after a call. -/
def ServerCall.exec (a : NcAuth) : ServerCall → NcAuth × List Act
  | .feed env msg => (ncAuthFeed P env a msg).2
  | .issue tok => (ncAuthServerToken a tok, [])
  | .resume env what form token => ncAuthServerResume env a what form token
  | .clear => ncAuthClear a

def ServerCall.apply (a : NcAuth) (c : ServerCall) : NcAuth := (c.exec P a).1

def ServerCall.acts (a : NcAuth) (c : ServerCall) : List Act := (c.exec P a).2

/-- The acts of a run of calls. -/
def trace : NcAuth → List ServerCall → List Act
  | _, [] => []
  | a, c :: cs => c.acts P a ++ trace (c.apply P a) cs

variable {P}

theorem trace_append (cs : List ServerCall) : ∀ (a : NcAuth) (cs' : List ServerCall),
    trace P a (cs ++ cs') = trace P a cs ++ trace P (run (ServerCall.apply P) a cs) cs' := by
  induction cs with
  | nil =>
    intro a cs'
    rfl
  | cons c cs ih =>
    intro a cs'
    rw [List.cons_append, trace, trace, run_cons, ih, List.append_assoc]

theorem trace_concat (a : NcAuth) (cs : List ServerCall) (c : ServerCall) :
    trace P a (cs ++ [c]) = trace P a cs ++ c.acts P (run (ServerCall.apply P) a cs) := by
  rw [trace_append, trace, trace, List.append_nil]

end

/-! ## Answers -/

section
variable {env : Env} {a : NcAuth}

theorem andThen_mk (a : NcAuth) (acts : List Act) (f : NcAuth → NcAuth × List Act) :
    andThen (a, acts) f = ((f a).1, acts ++ (f a).2) := rfl

theorem andThen_assoc (r : NcAuth × List Act) (f k : NcAuth → NcAuth × List Act) :
    andThen (andThen r f) k = andThen r fun a => andThen (f a) k := by
  rw [andThen, andThen, andThen, andThen, List.append_assoc]

theorem plain_nil : Plain [] := nofun

theorem plain_emit (a : NcAuth) (msg : List UInt8) : Plain (emit a msg) := by
  unfold emit
  split
  · simp [Plain, Act.isPlain]
  · exact plain_nil

theorem Plain.append {l l' : List Act} (h : Plain l) (h' : Plain l') : Plain (l ++ l') := by
  intro x hx
  rcases List.mem_append.1 hx with hx | hx
  · exact h x hx
  · exact h' x hx

theorem plain_sendWait (a : NcAuth) (form : Option Form) (token : Option (List UInt8)) :
    Plain (sendWait a form token) := by
  unfold sendWait
  dsimp only
  split
  · exact plain_nil
  · exact plain_emit _ _

/-- **A refusal** spends a try and ends the conversation with the last one. -/
theorem serverDeny_spec (a : NcAuth) (spent : UInt32) :
    ∃ avail state, (serverDeny a spent).1 = { a with avail, state, tries := a.tries + 1 } ∧
      (state = a.state ∧ a.tries + 1 < ncAuthMaxTries ∨ state = .denied) ∧
      Plain (serverDeny a spent).2 := by
  unfold serverDeny
  dsimp only
  split
  · exact ⟨0, .denied, rfl, .inr rfl, plain_emit _ _⟩
  · rename_i h
    exact ⟨_, _, rfl, .inl ⟨rfl, by omega⟩, plain_emit _ _⟩

/-- **An offer** replaces the methods, and ends the conversation if there are none. -/
theorem serverOffer_spec (env : Env) (a : NcAuth) :
    ∃ avail state, (serverOffer env a).1 = { a with avail, state } ∧
      (state = a.state ∨ state = .denied) ∧ Plain (serverOffer env a).2 := by
  have hp (a' : NcAuth) (mask : UInt32) (msg : List UInt8) :
      Plain ((if a.cbs.methods then [.methods a.user mask] else []) ++ emit a' msg) := by
    refine Plain.append ?_ (plain_emit _ _)
    split
    · simp [Plain, Act.isPlain]
    · exact plain_nil
  unfold serverOffer
  dsimp only
  generalize (if a.cbs.methods = true then env.methods a.user else 0) = mask
  by_cases h : mask = 0
  · rw [if_pos h]
    exact ⟨mask, .denied, rfl, .inr rfl, hp _ _ _⟩
  · rw [if_neg h]
    exact ⟨mask, a.state, rfl, .inl rfl, hp _ _ _⟩

theorem iaEnd_fires (hs : a.server = true) (hm : a.iaMethod ≠ 0) (hf : a.fired = false) :
    iaEnd a = ({ a with fired := true, iaMethod := 0 }, if a.cbs.cancelled then [.cancelled] else []) :=
  if_pos ⟨hs, hm, by rw [hf]; rfl⟩

theorem iaEnd_silent (hf : a.fired = true) : iaEnd a = ({ a with iaMethod := 0 }, []) :=
  if_neg fun h => by
    rw [hf] at h
    exact absurd h.2.2 (by decide)

/-- What holds of a server conversation between calls. -/
structure Serving (a : NcAuth) : Prop where
  server : a.server = true
  unfired : a.iaMethod ≠ 0 → a.fired = false
  method : a.iaMethod = 0 ∨ a.iaMethod = mRegister ∨ a.iaMethod = mInteractive
  greeted : a.iaMethod ≠ 0 → a.greeted = true

/-- What `verdict` can do to a server: it leaves the method running, ends it with a new offer or with
success, or refuses. -/
inductive Judged (a : NcAuth) (what : Verdict) (form : Option Form) : NcAuth × List Act → Prop
  | runs {q : List Act} (hq : Plain q) (hw : what = .more ∨ what = .wait) :
      Judged a what form (a, .verdict a.iaMethod what :: q)
  | offers {avail : UInt32} {state : State} {q : List Act} (hq : Plain q) (hw : what = .done)
      (hm : a.iaMethod = mRegister) (hst : state = a.state ∨ state = .denied) :
      Judged a what form
        ({ a with fired := false, iaMethod := 0, avail, state }, .verdict a.iaMethod what :: q)
  | succeeds {q : List Act} (hq : Plain q) (hw : what = .done) (hm : a.iaMethod ≠ mRegister) :
      Judged a what form
        ({ a with fired := true, iaMethod := 0, state := .ok }, .verdict a.iaMethod what :: q)
  | refuses {avail : UInt32} {state : State} {c q : List Act} (hq : Plain q) (hw : what ≠ .done)
      (hst : state = a.state ∧ a.tries + 1 < ncAuthMaxTries ∨ state = .denied)
      (hc : c = [] ∨ what = .more ∧ form = none ∧ c = [.cancelled]) :
      Judged a what form
        ({ a with fired := true, iaMethod := 0, avail, state, tries := a.tries + 1 },
          .verdict a.iaMethod what :: (c ++ q))

theorem end_refuse (a : NcAuth) (spent : UInt32) :
    ∃ avail state q, Plain q ∧
      (state = a.state ∧ a.tries + 1 < ncAuthMaxTries ∨ state = .denied) ∧
      andThen (iaEnd { a with fired := true }) (fun a' => serverDeny a' spent) =
        ({ a with fired := true, iaMethod := 0, avail, state, tries := a.tries + 1 }, q) := by
  obtain ⟨avail, state, he, hst, hq⟩ := serverDeny_spec { a with fired := true, iaMethod := 0 } spent
  refine ⟨avail, state, _, hq, hst, ?_⟩
  rw [iaEnd_silent rfl, andThen, he, List.nil_append]

theorem fire_refuse (hs : a.server = true) (hm : a.iaMethod ≠ 0) (hf : a.fired = false)
    (spent : UInt32) :
    ∃ avail state q, Plain q ∧
      (state = a.state ∧ a.tries + 1 < ncAuthMaxTries ∨ state = .denied) ∧
      andThen (iaEnd a) (fun a' => serverDeny a' spent) =
        ({ a with fired := true, iaMethod := 0, avail, state, tries := a.tries + 1 },
          (if a.cbs.cancelled then [.cancelled] else []) ++ q) := by
  obtain ⟨avail, state, he, hst, hq⟩ := serverDeny_spec { a with fired := true, iaMethod := 0 } spent
  refine ⟨avail, state, _, hq, hst, ?_⟩
  rw [iaEnd_fires hs hm hf, andThen, he]

/-- **What a verdict does.** -/
theorem verdict_cases (env : Env) (hs : a.server = true) (hm : a.iaMethod ≠ 0)
    (hf : a.fired = false) (what : Verdict) (form : Option Form) (token : Option (List UInt8)) :
    Judged a what form (verdict env a what form token) := by
  cases what with
  | more =>
    cases form with
    | none =>
      obtain ⟨avail, state, q, hq, hst, he⟩ := fire_refuse hs hm hf a.iaMethod
      simp only [verdict, andThen_mk a, he]
      refine .refuses (c := if a.cbs.cancelled then [.cancelled] else []) hq (by simp) hst ?_
      split
      · exact .inr ⟨rfl, rfl, rfl⟩
      · exact .inl rfl
    | some form =>
      cases hf : encodeForm form ncFormMaxMsg with
      | none =>
        obtain ⟨avail, state, q, hq, hst, he⟩ := end_refuse a a.iaMethod
        simp only [verdict, hf, andThen_mk a, he]
        exact .refuses (c := []) hq (by simp) hst (.inl rfl)
      | some msg =>
        simp only [verdict, hf, andThen_mk a]
        exact .runs (plain_emit a msg) (.inl rfl)
  | wait => exact .runs (plain_sendWait a form token) (.inr rfl)
  | done =>
    by_cases hr : a.iaMethod = mRegister
    · obtain ⟨avail, state, he, hst, hq⟩ :=
        serverOffer_spec env { a with fired := false, iaMethod := 0 }
      simp only [verdict, if_pos hr, andThen_mk a, he]
      exact .offers hq rfl hr hst
    · simp only [verdict, if_neg hr, andThen_mk a]
      exact .succeeds (plain_emit a [msgOk]) rfl hr
  | denied =>
    obtain ⟨avail, state, q, hq, hst, he⟩ := end_refuse a a.iaMethod
    simp only [verdict, andThen_mk a, he]
    exact .refuses (c := []) hq (by simp) hst (.inl rfl)

theorem serverToken_spec (a : NcAuth) (tok : List UInt8) :
    ∃ tok', ncAuthServerToken a tok = { a with token := tok' } := by
  unfold ncAuthServerToken
  split
  · exact ⟨a.token, rfl⟩
  · exact ⟨tok, rfl⟩

theorem issued_spec (a : NcAuth) (tok : Option (List UInt8)) :
    ∃ tok', a.issued tok = { a with token := tok' } := by
  cases tok with
  | none => exact ⟨a.token, rfl⟩
  | some tok => exact serverToken_spec a tok

/-- A callback's reply is judged, after its token is stored. -/
theorem replied_cases (env : Env) (hs : a.server = true) (hm : a.iaMethod ≠ 0) (hf : a.fired = false)
    (acts : List Act) (r : Reply) :
    ∃ tok v, Judged { a with token := tok } r.what (some r.form) v ∧
      replied env a acts r = (v.1, acts ++ v.2) := by
  obtain ⟨tok, he⟩ := issued_spec a r.token
  refine ⟨tok, _, verdict_cases env (a := { a with token := tok }) hs hm hf r.what (some r.form) none,
    ?_⟩
  rw [replied, he, andThen]

end

/-! ## Feeding a message -/

section
variable (P : Monocypher) (env : Env) (a : NcAuth) (msg : List UInt8)

/-- What `nc_auth_feed` can do to a server. -/
inductive Fed : Bool × NcAuth × List Act → Prop
  | ignored : Fed (false, a, [])
  | error (hp : a.state = .pending) : Fed (false, { a with state := .denied }, [])
  | hello (hp : a.state = .pending) (ht : byte msg 0 = msgHello) (hg : a.greeted = false)
      (hlen : msg.length = 2 + (byte msg 1).toNat) (hu : (byte msg 1).toNat ≤ ncAuthMaxUser) :
      Fed (true, serverOffer env { a with user := .ofBytes (msg.drop 2), greeted := true })
  | pubkey (hp : a.state = .pending) (ht : byte msg 0 = msgPubkey) (hg : a.greeted = true)
      (hlen : msg.length = 97) :
      Fed (true, serverPubkey P env a (bytesAt 32 msg 1) (bytesAt 64 msg 33))
  | password (hp : a.state = .pending) (ht : byte msg 0 = msgPassword) (hg : a.greeted = true)
      (hlen : msg.length = 2 + (byte msg 1).toNat) :
      Fed (true, serverPassword env a (.ofBytes (msg.drop 2)))
  | started (hp : a.state = .pending) (ht : byte msg 0 = msgIaBegin) (hg : a.greeted = true)
      (hi : a.iaMethod = 0) {method : UInt32} {tok : List UInt8}
      (hm : method = mRegister ∨ method = mInteractive) : Fed (true, iaBegin env a method tok)
  | submit (hp : a.state = .pending) (ht : byte msg 0 = msgIaSubmit) (hi : a.iaMethod ≠ 0)
      {strings : List UInt8} : Fed (true, iaSubmit env a strings)
  | cancel (hp : a.state = .pending) (ht : msg = [msgIaCancel]) (hi : a.iaMethod ≠ 0) :
      Fed (true, andThen (iaEnd a) (serverOffer env))

variable {P env a msg}

theorem serverFeed_cases (hp : a.state = .pending) :
    serverFeed P env a msg = none ∨ ∃ r, serverFeed P env a msg = some r ∧ Fed P env a msg (true, r) := by
  unfold serverFeed
  dsimp only
  split
  · rename_i ht
    split
    · exact .inl rfl
    rename_i h1
    split
    · exact .inl rfl
    rename_i h2
    simp only [not_or, not_not, Nat.not_lt, Bool.not_eq_true] at h1 h2
    exact .inr ⟨_, rfl, .hello hp ht h1.1 h2.2 h2.1⟩
  split
  · rename_i ht
    split
    · exact .inl rfl
    rename_i h1
    simp only [not_or, not_not, Bool.not_eq_true', Bool.not_eq_false] at h1
    exact .inr ⟨_, rfl, .pubkey hp ht h1.1 h1.2⟩
  split
  · rename_i ht
    split
    · exact .inl rfl
    rename_i h1
    split
    · exact .inl rfl
    rename_i h2
    simp only [not_or, not_not, Bool.not_eq_true', Bool.not_eq_false] at h1 h2
    exact .inr ⟨_, rfl, .password hp ht h1.1 h2.2⟩
  unfold iaServer
  split
  · rename_i ht
    split
    · exact .inl rfl
    rename_i h1
    simp only [not_or, not_not, Bool.not_eq_true', Bool.not_eq_false] at h1
    split
    · exact .inl rfl
    dsimp only
    split
    · exact .inl rfl
    rename_i h2
    refine .inr ⟨_, rfl, .started hp ht h1.1 h1.2 ?_⟩
    by_contra hc
    exact h2 (not_or.1 hc)
  split
  · rename_i ht
    split
    · exact .inl rfl
    rename_i h1
    cases hd : a.buf.bind fun cap => decodeAnswers cap msg with
    | none => exact .inl rfl
    | some strings => exact .inr ⟨_, rfl, .submit hp ht fun h => h1 (.inl h)⟩
  split
  · rename_i ht
    split
    · exact .inl rfl
    rename_i h1
    simp only [not_or, not_not] at h1
    refine .inr ⟨_, rfl, .cancel hp ?_ h1.2⟩
    obtain ⟨b, rfl⟩ := List.length_eq_one_iff.1 h1.1
    exact congrArg (fun b => [b]) ht
  · exact .inl rfl

/-- **What `nc_auth_feed` does to a server.** -/
theorem feed_cases (hs : a.server = true) : Fed P env a msg (ncAuthFeed P env a msg) := by
  unfold ncAuthFeed
  split
  · exact .ignored
  rename_i h1
  simp only [not_or, not_not] at h1
  generalize (if msgIsBulk (byte msg 0) = true then ncFormMaxMsg else ncAuthMaxMsg) = cap
  split
  · exact .ignored
  rcases @serverFeed_cases P env a msg h1.2 with h | ⟨r, h, hr⟩
  · rw [h]
    exact .error h1.2
  · rw [h]
    exact hr

end

/-! ## What a call does -/

/-- A check of a credential. -/
def Act.isCheck : Act → Bool
  | .checkSig _ _ _ => true
  | .checkKey _ _ _ => true
  | .checkPassword _ _ _ => true
  | _ => false

/-- A guess: a signature check or a call of `check_password`. -/
def Act.isGuess : Act → Bool
  | .checkSig _ _ _ => true
  | .checkPassword _ _ _ => true
  | _ => false

/-- The acts of checking one credential. -/
def OneCheck (g : List Act) : Prop := (∀ x ∈ g, x.isCheck = true) ∧ g.countP Act.isGuess ≤ 1

/-- The credential that a message presents is good. -/
inductive Proves (P : Monocypher) (a : NcAuth) : ServerCall → Prop
  | key {env : Env} {msg : List UInt8} (ht : byte msg 0 = msgPubkey) (hlen : msg.length = 97)
      (hav : a.avail &&& mPubkey ≠ 0)
      (hsig : P.eddsaCheck (bytesAt 64 msg 33) (bytesAt 32 msg 1)
        (ncAuthSignedDigest P a.sid a.user (bytesAt 32 msg 1)).val = true)
      (hkey : a.cbs.checkKey = true ∧ env.checkKey a.user (bytesAt 32 msg 1) = true) :
      Proves P a (.feed env msg)
  | password {env : Env} {msg : List UInt8} (ht : byte msg 0 = msgPassword)
      (hlen : msg.length = 2 + (byte msg 1).toNat) (hav : a.avail &&& mPassword ≠ 0)
      (hpass : a.cbs.checkPassword = true ∧
        env.checkPassword a.user (.ofBytes (msg.drop 2)) = true) :
      Proves P a (.feed env msg)

/-- What a call can do to a server conversation, apart from `nc_auth_clear`. -/
inductive Did (P : Monocypher) (a : NcAuth) (c : ServerCall) : NcAuth × List Act → Prop
  | idle {tok : List UInt8} : Did P a c ({ a with token := tok }, [])
  | error (hp : a.state = .pending) : Did P a c ({ a with state := .denied }, [])
  | hello (hp : a.state = .pending) (hg : a.greeted = false) {env : Env} {msg : List UInt8}
      (hc : c = .feed env msg) (ht : byte msg 0 = msgHello) (hok : (ncAuthFeed P env a msg).1 = true)
      (hlen : msg.length = 2 + (byte msg 1).toNat) (hu : (byte msg 1).toNat ≤ ncAuthMaxUser)
      {avail : UInt32} {state : State} {q : List Act} (hst : state = .pending ∨ state = .denied)
      (hq : Plain q) :
      Did P a c ({ a with user := .ofBytes (msg.drop 2), greeted := true, avail, state }, q)
  | refused (hp : a.state = .pending) (hg : a.greeted = true) {avail : UInt32} {state : State}
      {g q : List Act} (hst : state = .pending ∧ a.tries + 1 < ncAuthMaxTries ∨ state = .denied)
      (hone : OneCheck g) (hq : Plain q) :
      Did P a c ({ a with avail, state, tries := a.tries + 1 }, g ++ q)
  | login (hp : a.state = .pending) (hg : a.greeted = true) {g q : List Act} (hone : OneCheck g)
      (hq : Plain q) (hproves : Proves P a c) : Did P a c ({ a with state := .ok }, g ++ q)
  | orphan (hp : a.state = .pending) (hg : a.greeted = true) (hi : a.iaMethod = 0)
      {method avail : UInt32} {state : State} {q : List Act} (hav : a.avail &&& method ≠ 0)
      (hst : state = .pending ∧ a.tries + 1 < ncAuthMaxTries ∨ state = .denied) (hq : Plain q) :
      Did P a c ({ a with fired := true, iaMethod := 0, avail, state, tries := a.tries + 1 },
        .begun method :: ((if a.cbs.cancelled then [.cancelled] else []) ++ q))
  | began (hp : a.state = .pending) (hg : a.greeted = true) (hi : a.iaMethod = 0) {method : UInt32}
      (hm : method = mRegister ∨ method = mInteractive) (hav : a.avail &&& method ≠ 0)
      {tok : List UInt8} {cb : Act} (hcb : cb = .start method ∨ ∃ t, cb = .resume t) {what : Verdict}
      {form : Form} {v : NcAuth × List Act}
      (hv : Judged { a with iaMethod := method, fired := false, token := tok } what (some form) v) :
      Did P a c (v.1, .begun method :: cb :: v.2)
  | submitted (hp : a.state = .pending) (hi : a.iaMethod ≠ 0) {tok : List UInt8} {what : Verdict}
      {form : Form} {v : NcAuth × List Act}
      (hv : Judged { a with strings := [], token := tok } what (some form) v) :
      Did P a c (v.1, .submit :: v.2)
  | resumed (hp : a.state = .pending) (hi : a.iaMethod ≠ 0) {env : Env} {what : Verdict}
      {form : Option Form} {token : Option (List UInt8)} {v : NcAuth × List Act}
      (hc : c = .resume env what form token) (hv : Judged a what form v) : Did P a c v
  | cancelled (hp : a.state = .pending) (hi : a.iaMethod ≠ 0) {env : Env}
      (hc : c = .feed env [msgIaCancel]) {avail : UInt32} {state : State} {q : List Act}
      (hst : state = .pending ∨ state = .denied) (hq : Plain q) :
      Did P a c ({ a with fired := true, iaMethod := 0, avail, state },
        (if a.cbs.cancelled then [.cancelled] else []) ++ q)

section
variable {P : Monocypher} {env : Env} {a : NcAuth} {msg : List UInt8}

theorem oneCheck_nil : OneCheck [] := ⟨nofun, Nat.zero_le 1⟩

/-- Whatever ends in a refusal of a greeted client. -/
theorem did_refused {c : ServerCall} (hp : a.state = .pending) (hg : a.greeted = true)
    (spent : UInt32) {g : List Act} (hone : OneCheck g) :
    Did P a c (andThen (a, g) fun a => serverDeny a spent) := by
  obtain ⟨avail, state, he, hst, hq⟩ := serverDeny_spec a spent
  rw [andThen_mk, he]
  exact .refused hp hg (hp ▸ hst) hone hq

theorem did_pubkey (hp : a.state = .pending) (hg : a.greeted = true) (ht : byte msg 0 = msgPubkey)
    (hlen : msg.length = 97) :
    Did P a (.feed env msg) (serverPubkey P env a (bytesAt 32 msg 1) (bytesAt 64 msg 33)) := by
  unfold serverPubkey
  split
  · exact did_refused hp hg 0 oneCheck_nil
  rename_i hav
  dsimp only
  have hone (d pk : Key) (v known : Bool) : OneCheck (.checkSig d pk v ::
      (if v && a.cbs.checkKey then [.checkKey a.user pk known] else [])) := by
    split
    · simp [OneCheck, Act.isCheck, List.countP_cons, Act.isGuess]
    · simp [OneCheck, Act.isCheck, List.countP_cons, Act.isGuess]
  split
  · rename_i h
    simp only [Bool.and_eq_true] at h
    exact .login hp hg (hone ..) (plain_emit a [msgOk]) (.key ht hlen hav h.1.1 ⟨h.1.2, h.2⟩)
  · exact did_refused hp hg mPubkey (hone ..)

theorem did_password (hp : a.state = .pending) (hg : a.greeted = true)
    (ht : byte msg 0 = msgPassword) (hlen : msg.length = 2 + (byte msg 1).toNat) :
    Did P a (.feed env msg) (serverPassword env a (.ofBytes (msg.drop 2))) := by
  unfold serverPassword
  split
  · exact did_refused hp hg 0 oneCheck_nil
  rename_i hav
  dsimp only
  have hone (pass : CStr) (ok : Bool) : OneCheck
      (if a.cbs.checkPassword then [.checkPassword a.user pass ok] else []) := by
    split
    · simp [OneCheck, Act.isCheck, List.countP_cons, Act.isGuess]
    · exact oneCheck_nil
  split
  · rename_i h
    simp only [Bool.and_eq_true] at h
    exact .login hp hg (hone ..) (plain_emit a [msgOk]) (.password ht hlen hav h)
  · exact did_refused hp hg mPassword (hone ..)

theorem method_ne_zero {method : UInt32} (hm : method = mRegister ∨ method = mInteractive) :
    method ≠ 0 := by
  rcases hm with rfl | rfl
  · decide
  · decide

theorem did_begin (h : Serving a) (hp : a.state = .pending) (hg : a.greeted = true)
    (hi : a.iaMethod = 0) {method : UInt32} (hm : method = mRegister ∨ method = mInteractive)
    (tok : List UInt8) (c : ServerCall) : Did P a c (iaBegin env a method tok) := by
  have hne := method_ne_zero hm
  unfold iaBegin
  split
  · exact did_refused hp hg 0 oneCheck_nil
  rename_i hav
  have hav : a.avail &&& method ≠ 0 := fun hc => hav (.inl hc)
  dsimp only
  split
  · split
    · obtain ⟨avail, state, q, hq, hst, he⟩ :=
        fire_refuse (a := { a with iaMethod := method, fired := false }) h.server hne rfl method
      rw [andThen_assoc, andThen, he]
      exact .orphan hp hg hi hav (hp ▸ hst) hq
    · obtain ⟨t, v, hv, he⟩ := replied_cases env (a := { a with iaMethod := method, fired := false })
        h.server hne rfl [.begun method, .resume tok] (env.resume tok)
      rw [he]
      exact .began hp hg hi hm hav (.inr ⟨tok, rfl⟩) hv
  · obtain ⟨t, v, hv, he⟩ := replied_cases env (a := { a with iaMethod := method, fired := false })
      h.server hne rfl [.begun method, .start method] (env.start method)
    rw [he]
    exact .began hp hg hi hm hav (.inl rfl) hv

/-- **What a call does to a server conversation.** -/
theorem call_cases (h : Serving a) {c : ServerCall} (hc : c ≠ .clear) : Did P a c (c.exec P a) := by
  cases c with
  | feed env msg =>
    have hfed : Fed P env a msg (ncAuthFeed P env a msg) := feed_cases h.server
    rw [ServerCall.exec]
    generalize hr : ncAuthFeed P env a msg = r at hfed
    cases hfed with
    | ignored => exact .idle
    | error hp => exact .error hp
    | hello hp ht hg hlen hu =>
      obtain ⟨avail, state, he, hst, hq⟩ :=
        serverOffer_spec env { a with user := .ofBytes (msg.drop 2), greeted := true }
      rw [← Prod.mk.eta (p := serverOffer env _), he]
      exact .hello hp hg rfl ht (by rw [hr]) hlen hu (hp ▸ hst) hq
    | pubkey hp ht hg hlen => exact did_pubkey hp hg ht hlen
    | password hp ht hg hlen => exact did_password hp hg ht hlen
    | started hp ht hg hi hm => exact did_begin h hp hg hi hm _ _
    | submit hp ht hi =>
      rename_i strings
      obtain ⟨t, v, hv, he⟩ := replied_cases env (a := { a with strings := [] }) h.server hi
        (h.unfired hi) [.submit] (env.submit strings)
      rw [iaSubmit, he]
      exact .submitted hp hi hv
    | cancel hp ht hi =>
      obtain ⟨avail, state, he, hst, hq⟩ := serverOffer_spec env { a with fired := true, iaMethod := 0 }
      rw [iaEnd_fires h.server hi (h.unfired hi), andThen, he]
      exact .cancelled hp hi (by rw [ht]) (hp ▸ hst) hq
  | issue tok =>
    obtain ⟨tok', he⟩ := serverToken_spec a tok
    rw [ServerCall.exec, he]
    exact .idle
  | resume env what form token =>
    rw [ServerCall.exec, ncAuthServerResume]
    split
    · exact .idle
    rename_i hc
    simp only [not_or, not_not] at hc
    exact .resumed hc.2.2 hc.2.1 rfl (verdict_cases env h.server hc.2.1 (h.unfired hc.2.1) ..)
  | clear => exact absurd rfl hc

theorem Judged.frame {what : Verdict} {form : Option Form} {v : NcAuth × List Act}
    (h : Judged a what form v) :
    v.1.server = a.server ∧ v.1.greeted = a.greeted ∧ v.1.user = a.user ∧ v.1.sid = a.sid ∧
      v.1.cbs = a.cbs ∧ (v.1 = a ∨ v.1.iaMethod = 0) := by
  cases h with
  | runs hq hw => exact ⟨rfl, rfl, rfl, rfl, rfl, .inl rfl⟩
  | offers hq hw hm hst => exact ⟨rfl, rfl, rfl, rfl, rfl, .inr rfl⟩
  | succeeds hq hw hm => exact ⟨rfl, rfl, rfl, rfl, rfl, .inr rfl⟩
  | refuses hq hw hst hc => exact ⟨rfl, rfl, rfl, rfl, rfl, .inr rfl⟩

theorem Judged.serving {what : Verdict} {form : Option Form} {v : NcAuth × List Act}
    (h : Judged a what form v) (ha : Serving a) : Serving v.1 := by
  obtain ⟨hs, -, -, -, -, he | hi⟩ := h.frame
  · rw [he]
    exact ha
  · exact ⟨hs.trans ha.server, fun hne => absurd hi hne, .inl hi, fun hne => absurd hi hne⟩

/-- What no call changes: the session id, the callbacks, and the name after a HELLO. -/
theorem Did.frame {c : ServerCall} {r : NcAuth × List Act} (h : Did P a c r) :
    r.1.sid = a.sid ∧ r.1.cbs = a.cbs ∧
      (a.greeted = true → r.1.greeted = true ∧ r.1.user = a.user) := by
  cases h with
  | idle => exact ⟨rfl, rfl, fun hg => ⟨hg, rfl⟩⟩
  | error hp => exact ⟨rfl, rfl, fun hg => ⟨hg, rfl⟩⟩
  | hello hp hg hc ht hok hlen hu hst hq =>
    refine ⟨rfl, rfl, fun hg' => ?_⟩
    rw [hg] at hg'
    cases hg'
  | refused hp hg hst hone hq => exact ⟨rfl, rfl, fun hg => ⟨hg, rfl⟩⟩
  | login hp hg hone hq hproves => exact ⟨rfl, rfl, fun hg => ⟨hg, rfl⟩⟩
  | orphan hp hg hi hav hst hq => exact ⟨rfl, rfl, fun hg => ⟨hg, rfl⟩⟩
  | began hp hg hi hm hav hcb hv =>
    obtain ⟨-, hg, hu, hsid, hcbs, -⟩ := hv.frame
    exact ⟨hsid, hcbs, fun hgr => ⟨hg.trans hgr, hu⟩⟩
  | submitted hp hi hv =>
    obtain ⟨-, hg, hu, hsid, hcbs, -⟩ := hv.frame
    exact ⟨hsid, hcbs, fun hgr => ⟨hg.trans hgr, hu⟩⟩
  | resumed hp hi hc hv =>
    obtain ⟨-, hg, hu, hsid, hcbs, -⟩ := hv.frame
    exact ⟨hsid, hcbs, fun hgr => ⟨hg.trans hgr, hu⟩⟩
  | cancelled hp hi hc hst hq => exact ⟨rfl, rfl, fun hg => ⟨hg, rfl⟩⟩

theorem Did.over {c : ServerCall} {r : NcAuth × List Act} (h : Did P a c r)
    (hp : a.state ≠ .pending) : ∃ tok, r = ({ a with token := tok }, []) := by
  cases h with
  | idle => exact ⟨_, rfl⟩
  | error hp' => exact absurd hp' hp
  | hello hp' hg hc ht hok hlen hu hst hq => exact absurd hp' hp
  | refused hp' hg hst hone hq => exact absurd hp' hp
  | login hp' hg hone hq hproves => exact absurd hp' hp
  | orphan hp' hg hi hav hst hq => exact absurd hp' hp
  | began hp' hg hi hm hav hcb hv => exact absurd hp' hp
  | submitted hp' hi hv => exact absurd hp' hp
  | resumed hp' hi hc hv => exact absurd hp' hp
  | cancelled hp' hi hc hst hq => exact absurd hp' hp

theorem Serving.step (h : Serving a) {c : ServerCall} (hc : c ≠ .clear) : Serving (c.apply P a) := by
  have hdid := call_cases (P := P) h hc
  rw [ServerCall.apply]
  generalize c.exec P a = r at hdid
  have hidle {b : NcAuth} (hs : b.server = true) (hi : b.iaMethod = 0) : Serving b :=
    ⟨hs, fun hne => absurd hi hne, .inl hi, fun hne => absurd hi hne⟩
  cases hdid with
  | idle => exact ⟨h.server, h.unfired, h.method, h.greeted⟩
  | error hp => exact ⟨h.server, h.unfired, h.method, h.greeted⟩
  | hello hp hg hc ht hok hlen hu hst hq => exact ⟨h.server, h.unfired, h.method, fun _ => rfl⟩
  | refused hp hg hst hone hq => exact ⟨h.server, h.unfired, h.method, h.greeted⟩
  | login hp hg hone hq hproves => exact ⟨h.server, h.unfired, h.method, h.greeted⟩
  | orphan hp hg hi hav hst hq => exact hidle h.server rfl
  | began hp hg hi hm hav hcb hv => exact hv.serving ⟨h.server, fun _ => rfl, .inr hm, fun _ => hg⟩
  | submitted hp hi hv => exact hv.serving ⟨h.server, h.unfired, h.method, h.greeted⟩
  | resumed hp hi hc hv => exact hv.serving h
  | cancelled hp hi hc hst hq => exact hidle h.server rfl

/-- The server conversation before its first call. -/
def fresh (sid : Key) (cbs : Callbacks) (buf : Option Nat) : NcAuth :=
  ncAuthBuffer (ncAuthServerInit sid cbs) buf

theorem serving_fresh (sid : Key) (cbs : Callbacks) (buf : Option Nat) :
    Serving (fresh sid cbs buf) :=
  ⟨rfl, fun h => absurd rfl h, .inl rfl, fun h => absurd rfl h⟩

theorem serving_run (h : Serving a) {cs : List ServerCall} (hcs : ∀ c ∈ cs, c ≠ .clear) :
    Serving (run (ServerCall.apply P) a cs) :=
  run_invariant (I := Serving) (fun _ _ hb hc => hb.step hc) h
    (along_of_forall (A := fun c => c ≠ ServerCall.clear) hcs)

end

end Netchan.Auth
